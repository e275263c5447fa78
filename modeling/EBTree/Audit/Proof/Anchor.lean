import EBTree.Audit.Proof.Lines

/-!
# Anchors and the end of the chain

An anchor holds the number and the hash of the entry that was last when it was published.
`VerifyCarlAnchorAgainstChain` compares them with the entry that is last now: the number may have
grown, the hash must be the same.

* `verify_ok_iff`: what a chain must end with to pass.
* `anchor_verdicts`: **a chain that grew passes exactly when nothing was appended or the last
  entry appended repeats the anchored hash; a chain with other anchored entries is refused exactly
  when it does not end that way**.
* `growth_refused`: one honest append, and a rewritten chain that passes.
-/

set_option autoImplicit false

namespace EBTree.Audit

/-- The entry has the anchor's hash, and its number or a later one. -/
def RarChainEntry.Meets (e : RarChainEntry) (anchor : CarlSignedTreeHead) : Prop :=
  anchor.chainSequence ≤ e.sequence ∧ e.rarSha256 = anchor.rootHash

theorem verify_ok_iff (chain : Option Bytes) (anchor : CarlSignedTreeHead) :
    verifyCarlAnchorAgainstChain chain anchor = .ok () ↔
      ∃ e, readLastRarChainEntry chain = some e ∧ e.Meets anchor := by
  unfold verifyCarlAnchorAgainstChain
  cases readLastRarChainEntry chain with
  | none => simp
  | some e =>
    simp only [RarChainEntry.Meets, Option.some.injEq, exists_eq_left', ← UInt64.not_lt]
    by_cases hlt : e.sequence < anchor.chainSequence
    · simp [hlt]
    · by_cases hne : e.rarSha256 = anchor.rootHash
      · simp [hlt, hne]
      · simp [hlt, hne]

/-- What is published is what the chain ends with. -/
theorem publish_meets {chain : Option Bytes} {path : Bytes} {now : Int64}
    {sign : CarlSignedTreeHead → Bytes} {sth : CarlSignedTreeHead}
    (h : publishCarlAnchor chain path now sign = .ok sth) :
    ∃ e, readLastRarChainEntry chain = some e ∧ e.sequence = sth.chainSequence ∧
      e.rarSha256 = sth.rootHash := by
  unfold publishCarlAnchor at h
  cases hl : readLastRarChainEntry chain with
  | none =>
    rw [hl] at h
    cases h
  | some e =>
    rw [hl] at h
    cases h
    exact ⟨e, rfl, rfl, rfl⟩

/-- The first entries of `g`, as many as `chain` has, do not have the hashes of those of `chain`. -/
def Rewrites (g chain : Option Bytes) : Prop :=
  ((entriesOf g).take (entriesOf chain).length).map RarChainEntry.rarSha256 ≠
    (entriesOf chain).map RarChainEntry.rarSha256

/-- **The verdicts on an anchor**: for the chains that grew out of the anchored one, and for those
that differ from it where it was anchored. -/
theorem anchor_verdicts {chain : Option Bytes} {path : Bytes} {now : Int64}
    {sign : CarlSignedTreeHead → Bytes} {sth : CarlSignedTreeHead} (hw : WholeLines chain)
    (hp : publishCarlAnchor chain path now sign = .ok sth) :
    (∀ es, verifyCarlAnchorAgainstChain (appendAll chain es) sth = .ok () ↔
      ∀ e, es.getLast? = some e → e.Meets sth) ∧
    (∀ g, Rewrites g chain → (verifyCarlAnchorAgainstChain g sth ≠ .ok () ↔
      ∀ e, readLastRarChainEntry g = some e → ¬ e.Meets sth)) := by
  constructor
  · intro es
    rw [verify_ok_iff]
    rcases List.eq_nil_or_concat es with rfl | ⟨es, e, rfl⟩
    · obtain ⟨e, he, hseq, hroot⟩ := publish_meets hp
      refine iff_of_true ⟨e, he, ?_, hroot⟩ (by simp)
      rw [hseq]
      exact UInt64.le_refl _
    · rw [List.concat_eq_append, readLast_appendAll hw]
      simp [RarChainEntry.Meets, RarChainEntry.stored]
  · intro g _
    rw [ne_eq, verify_ok_iff]
    push Not
    rfl

/-! ## An honest append -/

/-- An entry with a body and its hash, behind an entry with hash `prev`. -/
def linkedEntry (sequence : UInt64) (prev body : Bytes) : RarChainEntry :=
  { sequence := sequence, bodyJson := body, rarSha256 := sha256HexString body,
    prevRarSha256 := prev }

/-- Two entries, linked. -/
def twoEntries (first second : Bytes) : List RarChainEntry :=
  [linkedEntry 1 [] first, linkedEntry 2 (sha256HexString first) second]

theorem appendAll_two (first second : Bytes) :
    appendAll (appendAll none [linkedEntry 1 [] first])
      [linkedEntry 2 (sha256HexString first) second] = appendAll none (twoEntries first second) := by
  simp only [appendAll, twoEntries, List.foldl_cons, List.foldl_nil]

/-- The anchor of a chain of one entry. -/
def firstAnchor (body : Bytes) : CarlSignedTreeHead :=
  { chainSequence := 1, rootHash := sha256HexString body }

theorem publish_first (body : Bytes) :
    publishCarlAnchor (appendAll none [linkedEntry 1 [] body]) [] 0 (fun _ => []) =
      .ok (firstAnchor body) := by
  have h := @readLast_appendAll none (.inl rfl) [] (linkedEntry 1 [] body)
  rw [List.nil_append] at h
  rw [publishCarlAnchor, h]
  rfl

theorem verify_two (anchored first second : Bytes) :
    verifyCarlAnchorAgainstChain (appendAll none (twoEntries first second))
        (firstAnchor anchored) =
      if sha256HexString second ≠ sha256HexString anchored then
        .error (.corrupt "anchor root_hash mismatch") else .ok () := by
  have h := @readLast_appendAll none (.inl rfl) [linkedEntry 1 [] first]
    (linkedEntry 2 (sha256HexString first) second)
  change readLastRarChainEntry (appendAll none (twoEntries first second)) = _ at h
  rw [verifyCarlAnchorAgainstChain, h]
  rfl

theorem rewrites_two {anchored first second : Bytes}
    (h : sha256HexString first ≠ sha256HexString anchored) :
    Rewrites (appendAll none (twoEntries first second))
      (appendAll none [linkedEntry 1 [] anchored]) := by
  have hnone : entriesOf none = [] := rfl
  rw [Rewrites, entriesOf_appendAll (.inl rfl), entriesOf_appendAll (.inl rfl), hnone]
  intro heq
  simp only [List.nil_append, List.map_cons, List.map_nil, List.length_singleton, twoEntries,
    List.take_succ_cons, List.take_zero, List.cons.injEq, and_true, RarChainEntry.stored,
    linkedEntry] at heq
  exact h heq

/-- **An honest append is refused, a rewritten chain passes**: an anchor is published for a chain
with the one body `a`. With `b` appended the chain fails; the chain of `b` and then `a` passes. -/
theorem growth_refused :
    publishCarlAnchor (appendAll none [linkedEntry 1 [] (ascii "a")]) [] 0 (fun _ => []) =
        .ok (firstAnchor (ascii "a")) ∧
      verifyCarlAnchorAgainstChain (appendAll (appendAll none [linkedEntry 1 [] (ascii "a")])
          [linkedEntry 2 (sha256HexString (ascii "a")) (ascii "b")]) (firstAnchor (ascii "a")) =
        .error (.corrupt "anchor root_hash mismatch") ∧
      Rewrites (appendAll none (twoEntries (ascii "b") (ascii "a")))
        (appendAll none [linkedEntry 1 [] (ascii "a")]) ∧
      verifyCarlAnchorAgainstChain (appendAll none (twoEntries (ascii "b") (ascii "a")))
        (firstAnchor (ascii "a")) = .ok () := by
  have hne : sha256HexString (ascii "b") ≠ sha256HexString (ascii "a") := by decide +kernel
  refine ⟨publish_first _, ?_, ?_, ?_⟩
  · rw [appendAll_two, verify_two, if_pos hne]
  · exact rewrites_two hne
  · rw [verify_two, if_neg (by simp)]

/-- The verdicts for the anchor of a chain with one entry. -/
theorem anchor_verdicts_first :
    (∀ es, verifyCarlAnchorAgainstChain
        (appendAll (appendAll none [linkedEntry 1 [] (ascii "a")]) es) (firstAnchor (ascii "a")) =
          .ok () ↔
      ∀ e, es.getLast? = some e → e.Meets (firstAnchor (ascii "a"))) ∧
    (∀ g, Rewrites g (appendAll none [linkedEntry 1 [] (ascii "a")]) →
      (verifyCarlAnchorAgainstChain g (firstAnchor (ascii "a")) ≠ .ok () ↔
        ∀ e, readLastRarChainEntry g = some e → ¬ e.Meets (firstAnchor (ascii "a")))) :=
  anchor_verdicts (WholeLines.appendAll (.inl rfl) _) (publish_first (ascii "a"))

end EBTree.Audit
