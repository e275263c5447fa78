import EBTree.Audit.Proof.Inclusion
import EBTree.Audit.Proof.Lines

/-!
# Batches over the worker's runs

The groups of entries that were published are consecutive pieces of the chain; what is gathered is
the rest of it. That is so while the chain is not rotated and the process not restarted with a
batch half gathered.

* `parse_batchToJsonLine`: a batch reads back from its line.
* `Gathered`: the invariant; `Gathered.step` keeps it.
* `Gathered.provable`: a published entry has a proof that verifies.
* `published_entries_provable`: **in every run whose events are calm, every entry that is not
  still being gathered has a proof that verifies against the root of its batch**.
* `restart_loses_leaf`: a restart with one leaf gathered, and that entry never has a proof.
-/

set_option autoImplicit false

namespace EBTree.Audit

/-! ## Lines of the sidecar -/

theorem plainStringValue_digest {x rest : Bytes} (h : ∀ c ∈ x, c ≠ 34 ∧ c ≠ 92) :
    plainStringValue (x ++ 34 :: rest) = x := by
  induction x with
  | nil => cases rest <;> simp [plainStringValue]
  | cons c x ih =>
    obtain ⟨h34, h92⟩ := h c List.mem_cons_self
    have ih := ih fun y hy => h y (List.mem_cons_of_mem _ hy)
    have hcons : ∃ y l, x ++ 34 :: rest = y :: l := by
      cases x with
      | nil => exact ⟨_, _, rfl⟩
      | cons y l => exact ⟨_, _, rfl⟩
    obtain ⟨y, l, hy⟩ := hcons
    rw [List.cons_append, hy, plainStringValue, if_neg h34, if_neg h92, ← hy, ih]

theorem batchToJsonLine_eq (b : CarlMerkleBatch) : batchToJsonLine b = 123 ::
    (jsonKey (ascii "batch_id") ++ (decimal b.batchId.toNat ++ 44 ::
    (jsonKey (ascii "start_sequence") ++ (decimal b.startSequence.toNat ++ 44 ::
    (jsonKey (ascii "end_sequence") ++ (decimal b.endSequence.toNat ++ 44 ::
    (jsonKey (ascii "leaf_count") ++ (decimal b.leafCount.toNat ++ 44 ::
    (jsonKey (ascii "root_hash") ++ 34 :: (b.rootHash ++ [34, 125])))))))))) := by
  unfold batchToJsonLine
  simp only [List.append_assoc, List.cons_append, List.nil_append]

/-- **A batch reads back**, its root being a digest. -/
theorem parse_batchToJsonLine {b : CarlMerkleBatch} (hb : IsDigest b.rootHash) :
    parseBatchLine (batchToJsonLine b) = b := by
  have hnum : ∀ n, 34 ∉ decimal n := quote_not_mem_decimal
  have hdig : ¬ IsDigit 44 := by decide
  have h := batchToJsonLine_eq b
  have hid : extractJsonUint64Field (batchToJsonLine b) (ascii "batch_id") = some b.batchId := by
    rw [extractJsonUint64Field, h, ← List.append_nil (jsonKey (ascii "batch_id")),
      behind?_skip_one (by decide)]
    simp only [List.append_nil, behind?_key, Option.map_some, strtoull_decimal hdig]
  have hstart : extractJsonUint64Field (batchToJsonLine b) (ascii "start_sequence") =
      some b.startSequence := by
    rw [extractJsonUint64Field, h, ← List.append_nil (jsonKey (ascii "start_sequence")),
      behind?_skip_one (by decide),
      behind?_skip_number (by decide) (by decide) (by decide) (hnum _)]
    simp only [List.append_nil, behind?_key, Option.map_some, strtoull_decimal hdig]
  have hend : extractJsonUint64Field (batchToJsonLine b) (ascii "end_sequence") =
      some b.endSequence := by
    rw [extractJsonUint64Field, h, ← List.append_nil (jsonKey (ascii "end_sequence")),
      behind?_skip_one (by decide),
      behind?_skip_number (by decide) (by decide) (by decide) (hnum _),
      behind?_skip_number (by decide) (by decide) (by decide) (hnum _)]
    simp only [List.append_nil, behind?_key, Option.map_some, strtoull_decimal hdig]
  have hcount : extractJsonUint64Field (batchToJsonLine b) (ascii "leaf_count") =
      some b.leafCount := by
    rw [extractJsonUint64Field, h, ← List.append_nil (jsonKey (ascii "leaf_count")),
      behind?_skip_one (by decide),
      behind?_skip_number (by decide) (by decide) (by decide) (hnum _),
      behind?_skip_number (by decide) (by decide) (by decide) (hnum _),
      behind?_skip_number (by decide) (by decide) (by decide) (hnum _)]
    simp only [List.append_nil, behind?_key, Option.map_some, strtoull_decimal hdig]
  have hroot : (behind? (jsonKey (ascii "root_hash") ++ [34]) (batchToJsonLine b)).map
      plainStringValue = some b.rootHash := by
    have hplain : ∀ c ∈ b.rootHash, c ≠ 34 ∧ c ≠ 92 := by
      obtain ⟨data, hdata⟩ := hb
      intro c hc
      exact (plain_of_mem_sha256HexString (hdata ▸ hc)).1
    rw [h, behind?_skip_one (by decide),
      behind?_skip_number (by decide) (by decide) (by decide) (hnum _),
      behind?_skip_number (by decide) (by decide) (by decide) (hnum _),
      behind?_skip_number (by decide) (by decide) (by decide) (hnum _),
      behind?_skip_number (by decide) (by decide) (by decide) (hnum _),
      behind?_key_string, Option.map_some, plainStringValue_digest hplain]
  simp only [parseBatchLine, hid, hstart, hend, hcount, hroot, Option.getD_some]

theorem batchToJsonLine_no_newline {b : CarlMerkleBatch} (hb : IsDigest b.rootHash) :
    ∀ c ∈ batchToJsonLine b, c ≠ 10 ∧ c ≠ 13 := by
  have hroot : ∀ c ∈ b.rootHash, c ≠ 10 ∧ c ≠ 13 := by
    obtain ⟨data, hdata⟩ := hb
    intro c hc
    exact (plain_of_mem_sha256HexString (hdata ▸ hc)).2
  simp only [batchToJsonLine, List.forall_mem_append, and_assoc]
  exact ⟨by decide +kernel, by decide +kernel, decimal_no_newline _, by decide +kernel,
    by decide +kernel, decimal_no_newline _, by decide +kernel, by decide +kernel,
    decimal_no_newline _, by decide +kernel, by decide +kernel, decimal_no_newline _,
    by decide +kernel, by decide +kernel, by decide +kernel, hroot, by decide +kernel⟩

/-- A batch that is put behind whole lines is the last one loaded. -/
theorem load_persist {sidecar : Option Bytes} (h : WholeLines sidecar) {b : CarlMerkleBatch}
    (hb : IsDigest b.rootHash) :
    loadCarlMerkleBatches (some (sidecar.getD [] ++ batchToJsonLine b ++ [10])) =
      loadCarlMerkleBatches sidecar ++ [b] := by
  have hlines : getlines [] (sidecar.getD [] ++ batchToJsonLine b ++ [10]) =
      getlines [] (sidecar.getD []) ++ [batchToJsonLine b] := by
    rw [List.append_assoc, getlines_whole h, getlines_line (batchToJsonLine_no_newline hb),
      List.nil_append, getlines, if_pos rfl]
  have hne : batchToJsonLine b ≠ [] := by
    rw [batchToJsonLine_eq]
    exact List.cons_ne_nil _ _
  have hkeep : [batchToJsonLine b].filter (· ≠ []) = [batchToJsonLine b] := by
    rw [List.filter_cons, if_pos (decide_eq_true hne), List.filter_nil]
  simp only [loadCarlMerkleBatches, Option.getD_some, hlines, List.filter_append, hkeep,
    List.map_append, List.map_singleton, parse_batchToJsonLine hb]

/-! ## Numbers -/

/-- The entries have the numbers `n + 1`, `n + 2` and so on. -/
def Numbered : Nat → List RarChainEntry → Prop
  | _, [] => True
  | n, e :: es => e.sequence.toNat = n + 1 ∧ Numbered (n + 1) es

theorem numbered_append {n : Nat} {as bs : List RarChainEntry} :
    Numbered n (as ++ bs) ↔ Numbered n as ∧ Numbered (n + as.length) bs := by
  induction as generalizing n with
  | nil => simp [Numbered]
  | cons a as ih =>
    rw [List.cons_append, Numbered, Numbered, ih, and_assoc, List.length_cons,
      Nat.add_comm as.length 1, Nat.add_assoc n 1 as.length]

theorem Numbered.bounds {n : Nat} {es : List RarChainEntry} (h : Numbered n es)
    {e : RarChainEntry} (he : e ∈ es) :
    n < e.sequence.toNat ∧ e.sequence.toNat ≤ n + es.length := by
  induction es generalizing n with
  | nil => cases he
  | cons a es ih =>
    rw [List.length_cons]
    rcases List.mem_cons.1 he with rfl | he
    · have := h.1
      omega
    · have := ih h.2 he
      omega

/-! ## The leaves of a batch -/

/-- The leaf of an entry. -/
def leafOf (e : RarChainEntry) : Bytes := carlMerkleHashLeaf e.rarSha256

theorem isDigest_leafOf {es : List RarChainEntry} : ∀ x ∈ es.map leafOf, IsDigest x := by
  intro x hx
  obtain ⟨e, -, rfl⟩ := List.mem_map.1 hx
  exact isDigest_leaf _

theorem leafOf_stored (es : List RarChainEntry) :
    (es.map RarChainEntry.stored).map leafOf = es.map leafOf := by
  rw [List.map_map]
  rfl

section Leaves

variable {b : CarlMerkleBatch} {sequence : UInt64} {rest : List RarChainEntry}

/-- Entries outside the batch are passed over. -/
theorem batchLeaves_skip {es : List RarChainEntry}
    (h : ∀ e ∈ es, e.sequence < b.startSequence ∨ b.endSequence < e.sequence)
    (leaves : List Bytes) (target : Option Nat) :
    batchLeaves b sequence leaves target (es ++ rest) =
      batchLeaves b sequence leaves target rest := by
  induction es with
  | nil => rfl
  | cons e es ih =>
    rw [List.cons_append, batchLeaves, if_pos (h e List.mem_cons_self),
      ih fun x hx => h x (List.mem_cons_of_mem _ hx)]

/-- Entries of the batch that are not the one looked for add their leaves. -/
theorem batchLeaves_add {es : List RarChainEntry}
    (h : ∀ e ∈ es, b.startSequence ≤ e.sequence ∧ e.sequence ≤ b.endSequence)
    (hne : ∀ e ∈ es, e.sequence ≠ sequence) (leaves : List Bytes) (target : Option Nat) :
    batchLeaves b sequence leaves target (es ++ rest) =
      batchLeaves b sequence (leaves ++ es.map leafOf) target rest := by
  induction es generalizing leaves with
  | nil => simp
  | cons e es ih =>
    obtain ⟨hlo, hhi⟩ := h e List.mem_cons_self
    have hin : ¬ (e.sequence < b.startSequence ∨ b.endSequence < e.sequence) := by
      rw [not_or, UInt64.not_lt, UInt64.not_lt]
      exact ⟨hlo, hhi⟩
    rw [List.cons_append, batchLeaves, if_neg hin, if_neg (hne e List.mem_cons_self),
      ih (fun x hx => h x (List.mem_cons_of_mem _ hx))
        (fun x hx => hne x (List.mem_cons_of_mem _ hx)), List.append_assoc]
    rfl

end Leaves

/-! ## Published groups -/

/-- The batch that was published for a group of entries. -/
structure Describes (b : CarlMerkleBatch) (g : List RarChainEntry) : Prop where
  start : ∀ e ∈ g.head?, b.startSequence = e.sequence
  last : ∀ e ∈ g.getLast?, b.endSequence = e.sequence
  root : b.rootHash = merkleRootFromLeaves (g.map leafOf)
  nonempty : g ≠ []

/-- The first and the last number of a group. -/
theorem Describes.range {b : CarlMerkleBatch} {g : List RarChainEntry} (h : Describes b g)
    {n : Nat} (hn : Numbered n g) :
    b.startSequence.toNat = n + 1 ∧ b.endSequence.toNat = n + g.length := by
  obtain ⟨hstart, hlast, -, hne⟩ := h
  constructor
  · cases g with
    | nil => exact absurd rfl hne
    | cons e g =>
      rw [hstart e rfl]
      exact hn.1
  · obtain ⟨es, e, rfl⟩ := List.eq_nil_or_concat g |>.resolve_left hne
    rw [List.concat_eq_append] at hn hlast ⊢
    rw [hlast e (by simp)]
    have := (numbered_append.1 hn).2.1
    simp only [List.length_append, List.length_singleton]
    omega

/-- A number lies in the range of a group exactly when it is the number of one of its entries. -/
theorem Describes.mem_range {b : CarlMerkleBatch} {g : List RarChainEntry} (h : Describes b g)
    {n : Nat} (hn : Numbered n g) (s : UInt64) :
    (b.startSequence ≤ s ∧ s ≤ b.endSequence) ↔ n < s.toNat ∧ s.toNat ≤ n + g.length := by
  obtain ⟨h1, h2⟩ := h.range hn
  rw [UInt64.le_iff_toNat_le, UInt64.le_iff_toNat_le, h1, h2]
  omega

/-- The first batch whose range has a number is that of the group it stands in. -/
theorem find_batch {bs : List CarlMerkleBatch} {gs : List (List RarChainEntry)}
    (h : List.Forall₂ Describes bs gs) {n : Nat} (hn : Numbered n gs.flatten)
    {e : RarChainEntry} (he : e ∈ gs.flatten) :
    ∃ b pre g post, gs.flatten = pre ++ g ++ post ∧ e ∈ g ∧ Describes b g ∧ b ∈ bs ∧
      bs.find? (fun b => decide (b.startSequence ≤ e.sequence ∧ e.sequence ≤ b.endSequence)) =
        some b := by
  induction h generalizing n with
  | nil => cases he
  | @cons b g bs gs hb _ ih =>
    rw [List.flatten_cons] at hn he ⊢
    obtain ⟨hng, hngs⟩ := numbered_append.1 hn
    by_cases hg : e ∈ g
    · refine ⟨b, [], g, gs.flatten, rfl, hg, hb, List.mem_cons_self, ?_⟩
      rw [List.find?_cons_of_pos]
      exact decide_eq_true ((hb.mem_range hng _).2 (hng.bounds hg))
    · have he := (List.mem_append.1 he).resolve_left hg
      obtain ⟨b', pre, g', post, hsplit, hmem, hb', hbs, hfind⟩ := ih hngs he
      refine ⟨b', g ++ pre, g', post, by rw [hsplit]; simp, hmem, hb',
        List.mem_cons_of_mem _ hbs, ?_⟩
      have hout : ¬ (b.startSequence ≤ e.sequence ∧ e.sequence ≤ b.endSequence) := by
        rw [hb.mem_range hng]
        have := (hngs.bounds he).1
        omega
      rw [List.find?_cons_of_neg (by simpa using hout), hfind]

/-- What is collected for an entry of a group. -/
theorem batchLeaves_group {b : CarlMerkleBatch} {pre g post : List RarChainEntry} {n : Nat}
    (hn : Numbered n (pre ++ g ++ post)) (hb : Describes b g) {e : RarChainEntry} (he : e ∈ g) :
    ∃ i, i < g.length ∧ (g.map leafOf).getD i [] = leafOf e ∧
      batchLeaves b e.sequence [] none ((pre ++ g ++ post).map RarChainEntry.stored) =
        (g.map leafOf, some i) := by
  obtain ⟨hpg, hnpost⟩ := numbered_append.1 hn
  obtain ⟨hnpre, hng⟩ := numbered_append.1 hpg
  have hin : ∀ x ∈ g, b.startSequence ≤ x.sequence ∧ x.sequence ≤ b.endSequence :=
    fun x hx => (hb.mem_range hng _).2 (hng.bounds hx)
  have hout : ∀ {x : RarChainEntry}, ¬ (b.startSequence ≤ x.sequence ∧
      x.sequence ≤ b.endSequence) →
      x.stored.sequence < b.startSequence ∨ b.endSequence < x.stored.sequence := by
    intro x hx
    rw [not_and_or, UInt64.not_le, UInt64.not_le] at hx
    exact hx
  have hskip_pre : ∀ x ∈ pre.map RarChainEntry.stored,
      x.sequence < b.startSequence ∨ b.endSequence < x.sequence := by
    intro x hx
    obtain ⟨y, hy, rfl⟩ := List.mem_map.1 hx
    apply hout
    rw [hb.mem_range hng]
    have := (hnpre.bounds hy).2
    omega
  have hskip_post : ∀ x ∈ post.map RarChainEntry.stored,
      x.sequence < b.startSequence ∨ b.endSequence < x.sequence := by
    intro x hx
    obtain ⟨y, hy, rfl⟩ := List.mem_map.1 hx
    apply hout
    rw [hb.mem_range hng]
    have := (hnpost.bounds hy).1
    rw [List.length_append] at this
    omega
  -- the entries of the group before and behind `e` have other numbers
  obtain ⟨g1, g2, rfl⟩ := List.append_of_mem he
  have hn1 := (numbered_append.1 hng).1
  have hn2 := (numbered_append.1 hng).2
  have hne1 : ∀ x ∈ g1.map RarChainEntry.stored, x.sequence ≠ e.sequence := by
    intro x hx heq
    obtain ⟨y, hy, rfl⟩ := List.mem_map.1 hx
    have h1 := (hn1.bounds hy).2
    have h2 := hn2.1
    have h3 : y.sequence.toNat = e.sequence.toNat := congrArg UInt64.toNat heq
    omega
  have hne2 : ∀ x ∈ g2.map RarChainEntry.stored, x.sequence ≠ e.sequence := by
    intro x hx heq
    obtain ⟨y, hy, rfl⟩ := List.mem_map.1 hx
    have h1 := (hn2.2.bounds hy).1
    have h2 := hn2.1
    have h3 : y.sequence.toNat = e.sequence.toNat := congrArg UInt64.toNat heq
    omega
  have hin_stored : ∀ l : List RarChainEntry, l ⊆ g1 ++ e :: g2 →
      ∀ x ∈ l.map RarChainEntry.stored,
        b.startSequence ≤ x.sequence ∧ x.sequence ≤ b.endSequence := by
    intro l hl x hx
    obtain ⟨y, hy, rfl⟩ := List.mem_map.1 hx
    exact hin y (hl hy)
  refine ⟨g1.length, by simp, by simp, ?_⟩
  obtain ⟨hlo, hhi⟩ := hin e he
  have hnot : ¬ (e.stored.sequence < b.startSequence ∨ b.endSequence < e.stored.sequence) := by
    rw [not_or, UInt64.not_lt, UInt64.not_lt]
    exact ⟨hlo, hhi⟩
  have hmap : (pre ++ (g1 ++ e :: g2) ++ post).map RarChainEntry.stored =
      pre.map RarChainEntry.stored ++ (g1.map RarChainEntry.stored ++ (e.stored ::
        (g2.map RarChainEntry.stored ++ (post.map RarChainEntry.stored ++ [])))) := by
    simp
  rw [hmap, batchLeaves_skip hskip_pre,
    batchLeaves_add (hin_stored g1 (List.subset_append_left _ _)) hne1, batchLeaves, if_neg hnot,
    if_pos (show e.stored.sequence = e.sequence from rfl),
    batchLeaves_add (hin_stored g2 (by intro x hx; simp [hx])) hne2,
    batchLeaves_skip hskip_post, batchLeaves]
  simp only [List.nil_append, leafOf_stored, List.length_map, Prod.mk.injEq, and_true]
  rw [List.append_assoc, List.map_append, List.map_cons]
  rfl

/-! ## The worker -/

section Worker

variable {opts : RarChainWorkerOptions} {w : RarChainWorker} {e : RarChainEntry}

/-- An entry has a proof, against the root of a published batch that its number belongs to. -/
def Provable (opts : RarChainWorkerOptions) (w : RarChainWorker) (e : RarChainEntry) : Prop :=
  ∃ proof root, generateCarlMerkleProof w.files (carlMerkleSidecarPath opts.chainPath)
      e.sequence = .ok (proof, root) ∧
    verifyCarlMerkleInclusion (carlMerkleHashLeaf e.rarSha256) proof root = .ok () ∧
    ∃ b ∈ loadCarlMerkleBatches (w.files (carlMerkleSidecarPath opts.chainPath)),
      b.rootHash = root ∧ b.startSequence ≤ e.sequence ∧ e.sequence ≤ b.endSequence

/-- **The invariant**: the chain file holds the entries that were appended, numbered from one; they
are the published groups and what is being gathered. -/
structure Gathered (opts : RarChainWorkerOptions) (w : RarChainWorker)
    (gs : List (List RarChainEntry)) (pend : List RarChainEntry) : Prop where
  path : opts.chainPath = [] → w.appended = []
  chain : w.files opts.chainPath = appendAll none w.appended
  split : w.appended = gs.flatten ++ pend
  numbered : Numbered 0 w.appended
  bound : w.appended.length < 2 ^ 64
  whole : WholeLines (w.files (carlMerkleSidecarPath opts.chainPath))
  batches : List.Forall₂ Describes
    (loadCarlMerkleBatches (w.files (carlMerkleSidecarPath opts.chainPath))) gs
  leaves : w.merkle.pendingLeaves = pend.map leafOf
  sequences : w.merkle.pendingSequences = pend.map RarChainEntry.sequence
  first : ∀ e ∈ pend.head?, w.merkle.batchStartSequence = e.sequence

theorem chainPathOf_sidecar {path : Bytes} (h : path ≠ []) :
    chainPathOf (carlMerkleSidecarPath path) = some path := by
  have hlen := List.length_pos_iff.2 h
  have h13 : (ascii ".merkle.jsonl").length = 13 := by decide +kernel
  have hnot : ¬ ((path ++ ascii ".merkle.jsonl").length ≤ 13 ∨
      ¬ ascii ".merkle.jsonl" <:+ path ++ ascii ".merkle.jsonl") := by
    rw [not_or, not_not, List.length_append, h13]
    exact ⟨by omega, List.suffix_append _ _⟩
  rw [chainPathOf, carlMerkleSidecarPath, if_neg hnot, List.length_append, h13,
    Nat.add_sub_cancel, List.take_left]

theorem sidecar_ne_chain (path : Bytes) : carlMerkleSidecarPath path ≠ path := by
  intro h
  have h13 : (ascii ".merkle.jsonl").length = 13 := by decide +kernel
  have hlen := congrArg List.length h
  rw [carlMerkleSidecarPath, List.length_append, h13] at hlen
  omega

/-- **A published entry is provable.** -/
theorem Gathered.provable {gs : List (List RarChainEntry)} {pend : List RarChainEntry}
    (h : Gathered opts w gs pend) (he : e ∈ gs.flatten) : Provable opts w e := by
  have hn : Numbered 0 (gs.flatten ++ pend) := h.split ▸ h.numbered
  obtain ⟨b, pre, g, post, hsplit, heg, hb, hbs, hfind⟩ :=
    find_batch h.batches (numbered_append.1 hn).1 he
  have hall : w.appended = pre ++ g ++ (post ++ pend) := by
    rw [h.split, hsplit, List.append_assoc]
  obtain ⟨i, hi, hleaf, hcollect⟩ := batchLeaves_group (hall ▸ h.numbered) hb heg
  have hne : w.appended ≠ [] := by
    intro hnil
    rw [hnil] at hall
    simp only [List.nil_eq, List.append_eq_nil_iff] at hall
    exact hb.nonempty hall.1.2
  have hpath : opts.chainPath ≠ [] := fun hp => hne (h.path hp)
  have hread : readRarChainEntries (w.files opts.chainPath) =
      .ok (w.appended.map RarChainEntry.stored) := by
    have hentries := @entriesOf_appendAll none (.inl rfl) w.appended
    rw [h.chain]
    cases hc : appendAll none w.appended with
    | none =>
      obtain ⟨es, x, hes⟩ := (List.eq_nil_or_concat w.appended).resolve_left hne
      rw [hes, List.concat_eq_append, appendAll, List.foldl_append] at hc
      cases hc
    | some text =>
      rw [hc] at hentries
      exact congrArg Except.ok hentries
  have hbatches : loadCarlMerkleBatches (w.files (carlMerkleSidecarPath opts.chainPath)) ≠ [] :=
    List.ne_nil_of_mem hbs
  have hproof : generateCarlMerkleProof w.files (carlMerkleSidecarPath opts.chainPath)
      e.sequence = .ok (siblings (g.map leafOf).length (g.map leafOf) i, b.rootHash) := by
    rw [hall] at hread
    simp only [generateCarlMerkleProof, chainPathOf_sidecar hpath, hread, hfind,
      if_neg hbatches, bind, Except.bind, hcollect]
    rfl
  have hrange := hb.mem_range ((numbered_append.1 (numbered_append.1
    (hall ▸ h.numbered)).1).2) e.sequence
  have hbounds := ((numbered_append.1 (numbered_append.1 (hall ▸ h.numbered)).1).2).bounds heg
  refine ⟨_, _, hproof, ?_, b, hbs, rfl, hrange.2 hbounds⟩
  have hverify := @verify_siblings _ (@isDigest_leafOf g) i (by simpa using hi)
  rw [hleaf, ← hb.root] at hverify
  exact hverify

/-! ## Events -/

/-- An event that keeps the batches whole: a job that does not rotate the chain, or a restart with
nothing gathered. -/
def Calm (opts : RarChainWorkerOptions) (w : RarChainWorker) : WorkerEvent → Prop
  | .job _ => ¬ w.Full opts
  | .restart => w.merkle.pendingLeaves = []

/-- The states that calm events lead to, from an empty start. -/
inductive CalmRun (opts : RarChainWorkerOptions) : RarChainWorker → Prop
  | init : CalmRun opts (.init opts)
  | step {w : RarChainWorker} {ev : WorkerEvent} :
      CalmRun opts w → Calm opts w ev → CalmRun opts (w.step opts ev)

theorem Gathered.init (opts : RarChainWorkerOptions) : Gathered opts (.init opts) [] [] where
  path _ := rfl
  chain := rfl
  split := rfl
  numbered := trivial
  bound := Nat.two_pow_pos 64
  whole := .inl rfl
  batches := .nil
  leaves := rfl
  sequences := rfl
  first := by simp

theorem Gathered.restart {gs : List (List RarChainEntry)} {pend : List RarChainEntry}
    (h : Gathered opts w gs pend) (hc : w.merkle.pendingLeaves = []) :
    Gathered opts (w.step opts .restart) gs [] := by
  have hpend : pend = [] := by
    have hl := h.leaves
    rw [hc] at hl
    exact List.map_eq_nil_iff.1 hl.symm
  subst hpend
  exact ⟨h.path, h.chain, h.split, h.numbered, h.bound, h.whole, h.batches, rfl, rfl, by simp⟩

/-- The entry of the next job goes on counting. -/
theorem Gathered.next_number {gs : List (List RarChainEntry)} {pend : List RarChainEntry}
    (h : Gathered opts w gs pend) (hfull : ¬ w.Full opts) (job : Job) (lsn : UInt64)
    (kernel : Bytes) :
    (job.entry (readLastRarChainEntry (w.files opts.chainPath)) lsn kernel).sequence.toNat =
        w.appended.length + 1 ∧
      w.appended.length + 1 < 2 ^ 64 := by
  rw [h.chain]
  rcases List.eq_nil_or_concat w.appended with hnil | ⟨es, t, hes⟩
  · rw [hnil]
    exact ⟨rfl, by decide⟩
  · rw [List.concat_eq_append] at hes
    have hlast : readLastRarChainEntry (appendAll none w.appended) = some t.stored := by
      rw [hes]
      exact readLast_appendAll (.inl rfl) es t
    have hseq : t.sequence.toNat = w.appended.length := by
      have hn := h.numbered
      rw [hes, numbered_append] at hn
      rw [hes, List.length_append, List.length_singleton]
      have := hn.2.1
      omega
    have hlt : t.sequence < opts.rotateMaxEntries := by
      rw [← UInt64.not_le]
      intro hle
      exact hfull ⟨t.stored, h.chain ▸ hlast, hle⟩
    have hmax := opts.rotateMaxEntries.toNat_lt
    rw [UInt64.lt_iff_toNat_lt] at hlt
    have hroom : w.appended.length + 1 < 2 ^ 64 := by omega
    refine ⟨?_, hroom⟩
    rw [hlast]
    change (t.sequence + 1).toNat = _
    rw [UInt64.toNat_add, hseq]
    exact Nat.mod_eq_of_lt hroom

/-- **An append keeps the invariant**: the batch is published when it is full. -/
theorem Gathered.append {gs : List (List RarChainEntry)} {pend : List RarChainEntry}
    (h : Gathered opts w gs pend) (hseq : e.sequence.toNat = w.appended.length + 1)
    (hroom : w.appended.length + 1 < 2 ^ 64) :
    ∃ gs' pend', Gathered opts (w.append opts e) gs' pend' := by
  by_cases hpath : opts.chainPath = []
  · rw [RarChainWorker.append, if_pos hpath]
    exact ⟨gs, pend, h⟩
  have hchain : appendRarChainEntry (w.files opts.chainPath) e =
      appendAll none (w.appended ++ [e]) := by
    rw [h.chain, appendAll, appendAll, List.foldl_append]
    rfl
  have hnumbered : Numbered 0 (w.appended ++ [e]) :=
    numbered_append.2 ⟨h.numbered, by omega, trivial⟩
  have hsplit : w.appended ++ [e] = gs.flatten ++ (pend ++ [e]) := by
    rw [h.split, List.append_assoc]
  have hbound : (w.appended ++ [e]).length < 2 ^ 64 := by
    rw [List.length_append]
    exact hroom
  have hside := sidecar_ne_chain opts.chainPath
  have hleaves : (w.merkle.appendLeaf e.sequence e.rarSha256).pendingLeaves =
      (pend ++ [e]).map leafOf := by
    rw [List.map_append, ← h.leaves]
    rfl
  have hseqs : (w.merkle.appendLeaf e.sequence e.rarSha256).pendingSequences =
      (pend ++ [e]).map RarChainEntry.sequence := by
    rw [List.map_append, ← h.sequences]
    rfl
  have hfirst : ∀ x ∈ (pend ++ [e]).head?,
      (w.merkle.appendLeaf e.sequence e.rarSha256).batchStartSequence = x.sequence := by
    intro x hx
    cases hp : pend with
    | nil =>
      have hl := h.leaves
      rw [hp] at hx hl
      obtain rfl : e = x := by simpa using hx
      exact if_pos hl
    | cons y ys =>
      have hl := h.leaves
      rw [hp] at hx hl
      obtain rfl : y = x := by simpa using hx
      have hne : ¬ w.merkle.pendingLeaves = [] := by simp [hl]
      exact (if_neg hne).trans (h.first y (by simp [hp]))
  rw [RarChainWorker.append, if_neg hpath]
  dsimp only
  split
  · -- the batch is full: it becomes a group
    have hne : ¬ (w.merkle.appendLeaf e.sequence e.rarSha256).pendingLeaves = [] := by
      simp [hleaves]
    have hflush : (w.merkle.appendLeaf e.sequence e.rarSha256).flushBatch =
        ({ (w.merkle.appendLeaf e.sequence e.rarSha256) with
            nextBatchId := (w.merkle.appendLeaf e.sequence e.rarSha256).nextBatchId + 1
            batchStartSequence := 0
            pendingLeaves := []
            pendingSequences := [] },
          (w.merkle.appendLeaf e.sequence e.rarSha256).flushBatch.2) := by
      simp only [CarlMerkleAccumulator.flushBatch, if_neg hne]
    have hb : Describes (w.merkle.appendLeaf e.sequence e.rarSha256).flushBatch.2
        (pend ++ [e]) := by
      simp only [CarlMerkleAccumulator.flushBatch, if_neg hne]
      refine ⟨hfirst, ?_, by rw [hleaves], by simp⟩
      intro x hx
      obtain rfl : e = x := by simpa using hx
      simp [hseqs]
    have hdigest : IsDigest (w.merkle.appendLeaf e.sequence e.rarSha256).flushBatch.2.rootHash := by
      rw [hb.root]
      exact isDigest_climbLevels _ (by simp) isDigest_leafOf
    refine ⟨gs ++ [pend ++ [e]], [], ?_⟩
    rw [hflush]
    refine ⟨fun hp => absurd hp hpath, ?_, ?_, hnumbered, hbound, ?_, ?_, rfl, rfl, by simp⟩
    · dsimp only [persistCarlMerkleBatch]
      rw [Function.update_of_ne hside.symm, Function.update_self]
      exact hchain
    · rw [List.append_nil, List.flatten_append, List.flatten_singleton]
      exact hsplit
    · dsimp only [persistCarlMerkleBatch]
      rw [Function.update_self]
      exact .inr ⟨_, rfl⟩
    · dsimp only [persistCarlMerkleBatch]
      rw [Function.update_self, Function.update_of_ne hside, load_persist h.whole hdigest]
      exact List.rel_append h.batches (.cons hb .nil)
  · refine ⟨gs, pend ++ [e], fun hp => absurd hp hpath, ?_, hsplit, hnumbered, hbound, ?_, ?_,
      hleaves, hseqs, hfirst⟩
    · dsimp only
      rw [Function.update_self]
      exact hchain
    · dsimp only
      rw [Function.update_of_ne hside]
      exact h.whole
    · dsimp only
      rw [Function.update_of_ne hside]
      exact h.batches

/-- **A calm event keeps the invariant.** -/
theorem Gathered.step {gs : List (List RarChainEntry)} {pend : List RarChainEntry}
    (h : Gathered opts w gs pend) {ev : WorkerEvent} (hc : Calm opts w ev) :
    ∃ gs' pend', Gathered opts (w.step opts ev) gs' pend' := by
  cases ev with
  | restart => exact ⟨gs, [], h.restart hc⟩
  | job job =>
    rw [RarChainWorker.step, RarChainWorker.processJob]
    simp only [if_neg (show ¬ w.Full opts from hc)]
    cases hs : job.snapshot with
    | none => exact ⟨gs, pend, h⟩
    | some snapshot =>
      obtain ⟨lsn, kernel⟩ := snapshot
      obtain ⟨hseq, hroom⟩ := h.next_number hc job lsn kernel
      exact h.append hseq hroom

theorem CalmRun.gathered (h : CalmRun opts w) : ∃ gs pend, Gathered opts w gs pend := by
  induction h with
  | init => exact ⟨[], [], Gathered.init opts⟩
  | step _ hc ih =>
    obtain ⟨gs, pend, h⟩ := ih
    exact h.step hc

/-- **Every entry that is not still being gathered has a proof that verifies** against the root of
a published batch its number belongs to, in every state that calm events lead to. -/
theorem published_entries_provable (h : CalmRun opts w) :
    ∀ e ∈ w.appended, e.sequence ∈ w.merkle.pendingSequences ∨ Provable opts w e := by
  obtain ⟨gs, pend, h⟩ := h.gathered
  intro e he
  rw [h.split, List.mem_append] at he
  rcases he with he | he
  · exact .inr (h.provable he)
  · refine .inl ?_
    rw [h.sequences]
    exact List.mem_map_of_mem he

end Worker

/-! ## A restart with a leaf gathered -/

/-- A job with a snapshot. -/
def plainJob : Job :=
  { snapshot := some (1, ascii "\x7b\x7d"), opLogHash := [], now := 0, signature := fun _ => [],
    renames := true }

/-- A chain with batches of two. -/
def pairOptions : RarChainWorkerOptions :=
  { chainPath := ascii "chain", rotateMaxEntries := 10000, batchSize := 2 }

/-- One entry, a restart, and two more entries. -/
def restartedWorker : RarChainWorker :=
  [.job plainJob, .restart, .job plainJob, .job plainJob].foldl (RarChainWorker.step pairOptions)
    (.init pairOptions)

/-- **A restart loses what is gathered**: the second and third entry make a batch, the first is in
none. -/
theorem restart_loses_leaf :
    restartedWorker.appended.map RarChainEntry.sequence = [1, 2, 3] ∧
      restartedWorker.merkle.pendingSequences = [] ∧
      ¬ ∃ e ∈ restartedWorker.appended, e.sequence = 1 ∧
        Provable pairOptions restartedWorker e := by
  -- one run of the four events answers all three questions
  have hrun : restartedWorker.appended.map RarChainEntry.sequence = [1, 2, 3] ∧
      restartedWorker.merkle.pendingSequences = [] ∧
      (loadCarlMerkleBatches (restartedWorker.files
        (carlMerkleSidecarPath pairOptions.chainPath))).find?
          (fun b => decide (b.startSequence ≤ 1 ∧ 1 ≤ b.endSequence)) = none := by decide +kernel
  refine ⟨hrun.1, hrun.2.1, ?_⟩
  rintro ⟨e, -, he, -, -, -, -, b, hb, -, hrange⟩
  rw [he] at hrange
  exact List.find?_eq_none.1 hrun.2.2 b hb (decide_eq_true hrange)

/-- Two jobs. -/
def pairWorker : RarChainWorker :=
  ((RarChainWorker.init pairOptions).step pairOptions (.job plainJob)).step pairOptions
    (.job plainJob)

/-- After two jobs nothing is gathered and both entries have proofs. -/
theorem pair_provable : pairWorker.appended.length = 2 ∧ ∀ e ∈ pairWorker.appended,
    e.sequence ∈ pairWorker.merkle.pendingSequences ∨ Provable pairOptions pairWorker e := by
  have hfirst : ¬ (RarChainWorker.init pairOptions).Full pairOptions := by decide +kernel
  have hsecond : ¬ ((RarChainWorker.init pairOptions).step pairOptions
      (.job plainJob)).Full pairOptions := by decide +kernel
  exact ⟨by decide +kernel, published_entries_provable (.step (.step .init hfirst) hsecond)⟩

end EBTree.Audit
