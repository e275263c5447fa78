import EBTree.Audit.Proof.Lines

/-!
# What a verified chain binds

`VerifyRarChain` checks of an entry that its number goes on from the one before, that it names the
hash of the one before, and that its body has the hash it gives. The last hash of a chain so fixes
the last body and nothing else: the other outer fields, and with them the name of the hash before,
are part of no text that is hashed.

* `verifyRarChain_consistent`: what a chain that passes is like (`Linked`).
* `chains_equal_iff`: **two chains that pass, of one length and with one last hash, say the same
  exactly when they agree on the parts that nothing binds** (`UnboundAgree`).
* `outer_field_unbound`: two chains of one entry that differ in the LSN of the checkpoint.
-/

set_option autoImplicit false

namespace EBTree.Audit

/-! ## The checks -/

/-- The entries that pass, behind an entry with hash `prev` and from number `n` on. -/
def Linked : Bytes → UInt64 → List RarChainEntry → Prop
  | _, _, [] => True
  | prev, n, e :: es =>
    (e.sequence = n ∧ (prev ≠ [] → e.prevRarSha256 = prev) ∧
      (e.bodyJson ≠ [] → e.rarSha256 ≠ [] → sha256HexString e.bodyJson = e.rarSha256)) ∧
    Linked e.rarSha256 (n + 1) es

theorem checkEntry_consistent (prev : Bytes) (n : UInt64) (r : RarChainVerifyReport)
    (e : RarChainEntry) :
    (checkEntry prev n r e).consistent = true ↔ r.consistent = true ∧ e.sequence = n ∧
      (prev ≠ [] → e.prevRarSha256 = prev) ∧
      (e.bodyJson ≠ [] → e.rarSha256 ≠ [] → sha256HexString e.bodyJson = e.rarSha256) := by
  unfold checkEntry RarChainVerifyReport.fail
  by_cases h1 : e.sequence = n <;> by_cases h2 : prev ≠ [] ∧ e.prevRarSha256 ≠ prev <;>
    by_cases h3 : e.bodyJson ≠ [] ∧ e.rarSha256 ≠ [] ∧
      sha256HexString e.bodyJson ≠ e.rarSha256 <;>
    simp only [h1, h2, h3, ne_eq, not_true_eq_false, not_false_eq_true, if_true, if_false] <;>
    simp
  tauto

theorem checkEntry_last (prev : Bytes) (n : UInt64) (r : RarChainVerifyReport)
    (e : RarChainEntry) : (checkEntry prev n r e).lastRarSha256 = e.rarSha256 := rfl

theorem checkEntries_consistent (prev : Bytes) (n : UInt64) (r : RarChainVerifyReport)
    (es : List RarChainEntry) :
    (checkEntries prev n r es).consistent = true ↔ r.consistent = true ∧ Linked prev n es := by
  induction es generalizing prev n r with
  | nil => simp [checkEntries, Linked]
  | cons e es ih =>
    rw [checkEntries, ih, checkEntry_consistent, Linked, and_assoc]

theorem checkEntries_last (prev : Bytes) (n : UInt64) (r : RarChainVerifyReport)
    (es : List RarChainEntry) :
    (checkEntries prev n r es).lastRarSha256 =
      (es.getLast?.map RarChainEntry.rarSha256).getD r.lastRarSha256 := by
  induction es generalizing prev n r with
  | nil => rfl
  | cons e es ih =>
    rw [checkEntries, ih, checkEntry_last]
    cases es with
    | nil => rfl
    | cons f es => simp [List.getLast?_cons]

/-- A chain that passes. -/
theorem verifyRarChain_consistent {chain : Option Bytes} {r : RarChainVerifyReport}
    (h : verifyRarChain chain = .ok r) :
    readRarChainEntries chain = .ok (entriesOf chain) ∧
      (r.consistent = true ↔ Linked [] 1 (entriesOf chain)) ∧
      r.lastRarSha256 = ((entriesOf chain).getLast?.map RarChainEntry.rarSha256).getD [] := by
  cases hr : readRarChainEntries chain with
  | error s =>
    rw [verifyRarChain, hr] at h
    cases h
  | ok es =>
    rw [verifyRarChain, hr] at h
    cases h
    rw [readRarChainEntries_eq hr]
    refine ⟨rfl, ?_, checkEntries_last _ _ _ _⟩
    rw [checkEntries_consistent]
    simp

/-- What is read has a body and no signature. -/
theorem body_ne_nil {chain : Option Bytes} {e : RarChainEntry} (h : e ∈ entriesOf chain) :
    e.bodyJson ≠ [] ∧ e.signature = [] := by
  obtain ⟨line, hline, rfl⟩ := List.mem_map.1 h
  have hne : line ≠ [] := by simpa using (List.mem_filter.1 hline).2
  refine ⟨?_, rfl⟩
  unfold parseChainLine
  dsimp only
  split
  · exact hne
  · exact ‹_›

/-! ## What is left open -/

/-- Two lists of entries agree on what the checks leave open, `prev` being the hash before them:
the fields outside the body, the name of the hash before where that is blank, every hash but the
last, and a body whose hash is blank. -/
def UnboundAgree : Bytes → List RarChainEntry → List RarChainEntry → Prop
  | prev, a :: as, b :: bs =>
    (a.checkpointLsn = b.checkpointLsn ∧ a.opLogHeadSha256 = b.opLogHeadSha256 ∧
      a.generatedAtUnix = b.generatedAtUnix) ∧
    (prev = [] → a.prevRarSha256 = b.prevRarSha256) ∧
    (as ≠ [] → a.rarSha256 = b.rarSha256) ∧
    (a.rarSha256 = [] → a.bodyJson = b.bodyJson) ∧
    UnboundAgree a.rarSha256 as bs
  | _, _, _ => True

theorem UnboundAgree.refl (prev : Bytes) (as : List RarChainEntry) :
    UnboundAgree prev as as := by
  induction as generalizing prev with
  | nil => trivial
  | cons a as ih => exact ⟨⟨rfl, rfl, rfl⟩, fun _ => rfl, fun _ => rfl, fun _ => rfl, ih _⟩

/-- Linked lists that agree on the rest agree. -/
theorem Linked.eq_of_unboundAgree {as bs : List RarChainEntry} {prev : Bytes} {n : UInt64}
    (ha : Linked prev n as) (hb : Linked prev n bs) (hlen : as.length = bs.length)
    (hlast : as.getLast?.map RarChainEntry.rarSha256 = bs.getLast?.map RarChainEntry.rarSha256)
    (hread : ∀ e ∈ as ++ bs, e.bodyJson ≠ [] ∧ e.signature = [])
    (hcoll : ∀ a ∈ as, ∀ b ∈ bs, sha256HexString a.bodyJson = sha256HexString b.bodyJson →
      a.bodyJson = b.bodyJson)
    (h : UnboundAgree prev as bs) : as = bs := by
  induction as generalizing bs prev n with
  | nil => exact (List.length_eq_zero_iff.1 hlen.symm).symm
  | cons a as ih =>
    cases bs with
    | nil => cases hlen
    | cons b bs =>
      obtain ⟨⟨haseq, haprev, habody⟩, ha⟩ := ha
      obtain ⟨⟨hbseq, hbprev, hbbody⟩, hb⟩ := hb
      obtain ⟨⟨hlsn, hop, hgen⟩, hprev, hrar, hbody, h⟩ := h
      obtain ⟨hane, hasig⟩ := hread a (by simp)
      obtain ⟨hbne, hbsig⟩ := hread b (by simp)
      have hlen' : as.length = bs.length := by simpa using hlen
      -- the hash: agreed on, or the last one
      have hrar : a.rarSha256 = b.rarSha256 := by
        cases as with
        | nil =>
          obtain rfl : bs = [] := List.length_eq_zero_iff.1 hlen'.symm
          simpa using hlast
        | cons a' as => exact hrar (by simp)
      -- the body: fixed by its hash unless that is blank
      have hbody : a.bodyJson = b.bodyJson := by
        by_cases hblank : a.rarSha256 = []
        · exact hbody hblank
        · apply hcoll a (by simp) b (by simp)
          rw [habody hane hblank, hbbody hbne (hrar ▸ hblank), hrar]
      have hprev : a.prevRarSha256 = b.prevRarSha256 := by
        by_cases hblank : prev = []
        · exact hprev hblank
        · rw [haprev hblank, hbprev hblank]
      have hab : a = b :=
        RarChainEntry.ext (haseq.trans hbseq.symm) hlsn hbody hrar hprev hop hgen
          (hasig.trans hbsig.symm)
      have hlast' : as.getLast?.map RarChainEntry.rarSha256 =
          bs.getLast?.map RarChainEntry.rarSha256 := by
        cases as with
        | nil =>
          obtain rfl : bs = [] := List.length_eq_zero_iff.1 hlen'.symm
          rfl
        | cons a' as =>
          cases bs with
          | nil => cases hlen'
          | cons b' bs => simpa [List.getLast?_cons] using hlast
      have hrest : as = bs := by
        refine ih ha (hrar ▸ hb) hlen' hlast' (fun e he => ?_) (fun x hx y hy => ?_) h
        · rcases List.mem_append.1 he with he | he
          · exact hread e (by simp [he])
          · exact hread e (by simp [he])
        · exact hcoll x (List.mem_cons_of_mem _ hx) y (List.mem_cons_of_mem _ hy)
      rw [hab, hrest]

/-- **What two chains that pass have in common**: with as many entries and one last hash, and no
two bodies with one hash, they say the same if and only if they agree on what is unbound. -/
theorem chains_equal_iff {f g : Option Bytes} {r r' : RarChainVerifyReport}
    (hf : verifyRarChain f = .ok r) (hg : verifyRarChain g = .ok r')
    (hr : r.consistent = true) (hr' : r'.consistent = true)
    (hlen : (entriesOf f).length = (entriesOf g).length)
    (hlast : r.lastRarSha256 = r'.lastRarSha256)
    (hcoll : ∀ a ∈ entriesOf f, ∀ b ∈ entriesOf g,
      sha256HexString a.bodyJson = sha256HexString b.bodyJson → a.bodyJson = b.bodyJson) :
    readRarChainEntries f = readRarChainEntries g ↔
      UnboundAgree [] (entriesOf f) (entriesOf g) := by
  obtain ⟨hfread, hfcons, hflast⟩ := verifyRarChain_consistent hf
  obtain ⟨hgread, hgcons, hglast⟩ := verifyRarChain_consistent hg
  rw [hfread, hgread, Except.ok.injEq]
  constructor
  · intro h
    rw [h]
    exact UnboundAgree.refl _ _
  · refine (hfcons.1 hr).eq_of_unboundAgree (hgcons.1 hr') hlen ?_ ?_ hcoll
    · rw [hflast, hglast] at hlast
      cases hx : entriesOf f with
      | nil =>
        rw [hx] at hlen
        rw [List.length_eq_zero_iff.1 hlen.symm]
      | cons a as =>
        cases hy : entriesOf g with
        | nil =>
          rw [hx, hy] at hlen
          cases hlen
        | cons b bs =>
          rw [hx, hy] at hlast
          simpa [List.getLast?_cons] using hlast
    · intro e he
      rcases List.mem_append.1 he with he | he
      · exact body_ne_nil he
      · exact body_ne_nil he

/-! ## A field that nothing binds -/

/-- One entry with a body and its hash, for a checkpoint at some LSN. -/
def plainEntry (checkpointLsn : UInt64) (body : Bytes) : RarChainEntry :=
  { sequence := 1, checkpointLsn := checkpointLsn, bodyJson := body,
    rarSha256 := sha256HexString body }

theorem entriesOf_plainEntry (lsn : UInt64) {body : Bytes} (hb : body ≠ []) :
    entriesOf (appendRarChainEntry none (plainEntry lsn body)) = [plainEntry lsn body] := by
  rw [entriesOf_append (.inl rfl)]
  simp [RarChainEntry.stored, plainEntry, hb, entriesOf, getlines]

theorem verify_plainEntry (lsn : UInt64) {body : Bytes} (hb : body ≠ []) :
    ∃ r, verifyRarChain (appendRarChainEntry none (plainEntry lsn body)) = .ok r ∧
      r.consistent = true ∧ r.lastRarSha256 = sha256HexString body := by
  have hread : readRarChainEntries (appendRarChainEntry none (plainEntry lsn body)) =
      .ok [plainEntry lsn body] := by
    rw [← entriesOf_plainEntry lsn hb]
    rfl
  refine ⟨_, by rw [verifyRarChain, hread]; rfl, ?_, ?_⟩
  · rw [checkEntries_consistent]
    exact ⟨rfl, ⟨rfl, fun h => absurd rfl h, fun _ _ => rfl⟩, trivial⟩
  · rfl

/-- **The outer LSN is not bound**: two chains of one entry that differ in it pass, with the same
hash of the same body. -/
theorem outer_field_unbound :
    ∃ r r', verifyRarChain (appendRarChainEntry none (plainEntry 1 (ascii "\x7b\x7d"))) = .ok r ∧
      verifyRarChain (appendRarChainEntry none (plainEntry 2 (ascii "\x7b\x7d"))) = .ok r' ∧
      r.consistent = true ∧ r'.consistent = true ∧ r.lastRarSha256 = r'.lastRarSha256 ∧
      (∀ a ∈ entriesOf (appendRarChainEntry none (plainEntry 1 (ascii "\x7b\x7d"))),
        ∀ b ∈ entriesOf (appendRarChainEntry none (plainEntry 2 (ascii "\x7b\x7d"))),
        sha256HexString a.bodyJson = sha256HexString b.bodyJson → a.bodyJson = b.bodyJson) ∧
      readRarChainEntries (appendRarChainEntry none (plainEntry 1 (ascii "\x7b\x7d"))) ≠
        readRarChainEntries (appendRarChainEntry none (plainEntry 2 (ascii "\x7b\x7d"))) := by
  have hb : ascii "\x7b\x7d" ≠ [] := by decide
  obtain ⟨r, hr, hc, hl⟩ := verify_plainEntry 1 hb
  obtain ⟨r', hr', hc', hl'⟩ := verify_plainEntry 2 hb
  refine ⟨r, r', hr, hr', hc, hc', hl.trans hl'.symm, ?_, ?_⟩
  · rw [entriesOf_plainEntry 1 hb, entriesOf_plainEntry 2 hb]
    intro a ha b hb' _
    rw [List.mem_singleton.1 ha, List.mem_singleton.1 hb']
    rfl
  · rw [(verifyRarChain_consistent hr).1, (verifyRarChain_consistent hr').1,
      entriesOf_plainEntry 1 hb, entriesOf_plainEntry 2 hb]
    intro h
    have hlsn : (plainEntry 1 (ascii "\x7b\x7d")).checkpointLsn =
        (plainEntry 2 (ascii "\x7b\x7d")).checkpointLsn := by
      rw [Except.ok.injEq, List.cons.injEq] at h
      rw [h.1]
    exact absurd hlsn (by decide)

/-- The equivalence on these two chains. -/
theorem chains_equal_two :
    readRarChainEntries (appendRarChainEntry none (plainEntry 1 (ascii "\x7b\x7d"))) =
        readRarChainEntries (appendRarChainEntry none (plainEntry 2 (ascii "\x7b\x7d"))) ↔
      UnboundAgree [] (entriesOf (appendRarChainEntry none (plainEntry 1 (ascii "\x7b\x7d"))))
        (entriesOf (appendRarChainEntry none (plainEntry 2 (ascii "\x7b\x7d")))) := by
  have hb : ascii "\x7b\x7d" ≠ [] := by decide
  obtain ⟨r, hr, hc, hl⟩ := verify_plainEntry 1 hb
  obtain ⟨r', hr', hc', hl'⟩ := verify_plainEntry 2 hb
  refine chains_equal_iff hr hr' hc hc' ?_ (hl.trans hl'.symm) ?_
  · rw [entriesOf_plainEntry 1 hb, entriesOf_plainEntry 2 hb]
    rfl
  · rw [entriesOf_plainEntry 1 hb, entriesOf_plainEntry 2 hb]
    intro a ha b hb' _
    rw [List.mem_singleton.1 ha, List.mem_singleton.1 hb']
    rfl

end EBTree.Audit
