import EBTree.Audit.Merkle
import EBTree.Lib.HashTree

/-!
# Proofs of inclusion

The tree of `rar_merkle.cc` is a hash tree over SHA-256 (`carlHashing`); proofs travel as strings
that begin with the side of the sibling (`stepString`, `readStep`).

* `verify_siblings`: **the proof of a leaf verifies against the root of its leaves**, for any
  number of leaves.
* `inclusion_proofs`: for any hash to 64 characters, **what verifies was hashed into the root**, or
  two of the strings that were hashed collide.
-/

set_option autoImplicit false

namespace EBTree.Audit

open Lib

/-- A digest of some text. -/
def IsDigest (x : Bytes) : Prop := ∃ data, x = sha256HexString data

theorem isDigest_leaf (r : Bytes) : IsDigest (carlMerkleHashLeaf r) := ⟨_, rfl⟩

theorem IsDigest.length {x : Bytes} (h : IsDigest x) : x.length = 64 := by
  obtain ⟨data, rfl⟩ := h
  exact length_sha256HexString data

theorem IsDigest.ne_nil {x : Bytes} (h : IsDigest x) : x ≠ [] := by
  obtain ⟨data, rfl⟩ := h
  exact sha256HexString_ne_nil data

/-! ## Any hash -/

/-- The two domains over any hash to 64 characters. -/
def carlHashing (hash : Bytes → Bytes) (h64 : ∀ s, (hash s).length = 64) : Hashing UInt8 where
  hash := hash
  leafTag := ascii "carl:leaf:"
  nodeTag := ascii "carl:node:"
  width := 64
  length_hash := h64
  tags_apart s t h := absurd (List.append_inj h (by decide)).1 (by decide)

section Over

variable (H : Hashing UInt8)

/-- One step of a proof as it is written. -/
def stepString (step : Bool × Bytes) : Bytes :=
  (if step.1 then [76, 58] else [82, 58]) ++ step.2

/-- One step of a proof as it is read. -/
def readStep (step : Bytes) : Bool × Bytes := (decide (step.getD 0 0 = 76), step.drop 2)

/-- `climbProof` over any hash. -/
def climbProofOver (current : Bytes) : List Bytes → Except Status Bytes
  | [] => .ok current
  | step :: rest =>
    if step.length < 3 ∨ (step.getD 0 0 ≠ 76 ∧ step.getD 0 0 ≠ 82) ∨ step.getD 1 0 ≠ 58 then
      .error (.invalidArgument "invalid merkle proof step")
    else if step.getD 0 0 = 76 then
      climbProofOver (H.node (step.drop 2) current) rest
    else climbProofOver (H.node current (step.drop 2)) rest

/-- `verifyCarlMerkleInclusion` over any hash. -/
def verifyInclusionOver (leafHash : Bytes) (proof : List Bytes) (rootHash : Bytes) :
    Except Status Unit := do
  let current ← climbProofOver H leafHash proof
  if current ≠ rootHash then throw (.corrupt "merkle inclusion proof failed")

/-- The root of some leaves. -/
def rootOver (leaves : List Bytes) : Bytes := H.top leaves.length leaves

/-- The proof of a leaf. -/
def proofOver (leaves : List Bytes) (pos : Nat) : List Bytes :=
  (H.siblings leaves.length leaves pos).map stepString

variable {H}

/-- A proof that can be read to its end leads where its steps lead. -/
theorem climbProofOver_eq {current v : Bytes} {proof : List Bytes}
    (h : climbProofOver H current proof = .ok v) : H.climb current (proof.map readStep) = v := by
  induction proof generalizing current with
  | nil =>
    cases h
    rfl
  | cons step rest ih =>
    rw [climbProofOver] at h
    split at h
    · cases h
    split at h
    · rename_i hside
      have hstep : H.hash (H.stepText current (readStep step)) = H.node (step.drop 2) current := by
        simp only [Hashing.stepText, readStep, hside, decide_true, if_true, Hashing.node]
      rw [List.map_cons, Hashing.climb, hstep]
      exact ih h
    · rename_i hside
      have hstep : H.hash (H.stepText current (readStep step)) = H.node current (step.drop 2) := by
        simp only [Hashing.stepText, readStep, hside, decide_false, Bool.false_eq_true, if_false,
          Hashing.node]
      rw [List.map_cons, Hashing.climb, hstep]
      exact ih h

/-- Steps with siblings that are not empty are read as they were written. -/
theorem climbProofOver_stepString {steps : List (Bool × Bytes)} (hne : ∀ s ∈ steps, s.2 ≠ [])
    (current : Bytes) :
    climbProofOver H current (steps.map stepString) = .ok (H.climb current steps) := by
  induction steps generalizing current with
  | nil => rfl
  | cons step rest ih =>
    obtain ⟨hstep, hrest⟩ := List.forall_mem_cons.1 hne
    obtain ⟨left, node⟩ := step
    have hlen := List.length_pos_iff.2 hstep
    have hlen3 : ¬ node.length + 1 + 1 < 3 := by
      dsimp only at hlen
      omega
    rw [List.map_cons, Hashing.climb, ← ih hrest]
    cases left with
    | true => simp [climbProofOver, stepString, Hashing.stepText, Hashing.node, hlen3]
    | false => simp [climbProofOver, stepString, Hashing.stepText, Hashing.node, hlen3]

theorem verifyInclusionOver_ok {leafHash rootHash : Bytes} {proof : List Bytes} :
    verifyInclusionOver H leafHash proof rootHash = .ok () ↔
      climbProofOver H leafHash proof = .ok rootHash := by
  unfold verifyInclusionOver
  cases climbProofOver H leafHash proof with
  | error e => simp [bind, Except.bind]
  | ok v =>
    by_cases hv : v = rootHash
    · simp [bind, Except.bind, pure, Except.pure, hv]
    · simp [bind, Except.bind, hv, throw, throwThe, MonadExceptOf.throw]

theorem siblingAt_ne_nil {level : List Bytes} (hd : ∀ x ∈ level, x ≠ []) {pos : Nat}
    (h : pos < level.length) : Hashing.siblingAt level pos ≠ [] := by
  have hget : ∀ {i : Nat}, i < level.length → level.getD i [] ≠ [] := by
    intro i hi
    rw [List.getD_eq_getElem _ _ hi]
    exact hd _ (List.getElem_mem hi)
  unfold Hashing.siblingAt
  dsimp only
  split
  · split
    · exact hget ‹_›
    · exact hget h
  · split
    · exact hget ‹_›
    · exact hget h

theorem siblings_ne_nil (hwidth : 0 < H.width) (rounds : Nat) {level : List Bytes}
    (hd : ∀ x ∈ level, x ≠ []) {pos : Nat} (hpos : pos < level.length) :
    ∀ s ∈ H.siblings rounds level pos, s.2 ≠ [] := by
  induction rounds generalizing level pos with
  | zero => simp [Hashing.siblings]
  | succ rounds ih =>
    rw [Hashing.siblings]
    split
    · refine List.forall_mem_cons.2 ⟨siblingAt_ne_nil hd hpos, ih ?_ ?_⟩
      · intro x hx
        obtain ⟨t, -, rfl⟩ := List.mem_map.1 hx
        exact List.ne_nil_of_length_pos (by rwa [H.length_hash])
      · rw [Hashing.length_nextLevel]
        omega
    · simp

/-- The proof of a leaf verifies, over any hash. -/
theorem verify_proofOver (hwidth : 0 < H.width) {leaves : List Bytes}
    (hd : ∀ x ∈ leaves, x ≠ []) {pos : Nat} (hpos : pos < leaves.length) :
    verifyInclusionOver H (leaves.getD pos []) (proofOver H leaves pos) (rootOver H leaves) =
      .ok () := by
  rw [verifyInclusionOver_ok, proofOver,
    climbProofOver_stepString (siblings_ne_nil hwidth _ hd hpos),
    H.climb_siblings _ hpos (by omega)]
  rfl

end Over

/-! ## SHA-256 -/

/-- What `rar_merkle.cc` hashes with. -/
def sha256Hashing : Hashing UInt8 := carlHashing sha256HexString length_sha256HexString

theorem carlMerkleHashLeaf_eq : carlMerkleHashLeaf = sha256Hashing.leaf := rfl

theorem nextLevel_eq (level : List Bytes) : nextLevel level = sha256Hashing.nextLevel level := by
  induction level using nextLevel.induct with
  | case1 => rfl
  | case2 => rfl
  | case3 x y rest ih =>
    rw [nextLevel, ih]
    rfl

theorem climbLevels_eq (rounds : Nat) (level : List Bytes) :
    climbLevels rounds level = sha256Hashing.top rounds level := by
  induction rounds generalizing level with
  | zero => rfl
  | succ rounds ih => rw [climbLevels, Hashing.top, ih, nextLevel_eq]

theorem siblings_eq (rounds : Nat) (level : List Bytes) (pos : Nat) :
    siblings rounds level pos = (sha256Hashing.siblings rounds level pos).map stepString := by
  induction rounds generalizing level pos with
  | zero => rfl
  | succ rounds ih =>
    rw [siblings, Hashing.siblings]
    split
    · rw [List.map_cons, ih, nextLevel_eq]
      rcases Nat.mod_two_eq_zero_or_one pos with h | h
      · simp [stepString, Hashing.siblingAt, h]
      · simp [stepString, Hashing.siblingAt, h]
    · rfl

theorem climbProof_eq (current : Bytes) (proof : List Bytes) :
    climbProof current proof = climbProofOver sha256Hashing current proof := by
  induction proof generalizing current with
  | nil => rfl
  | cons step rest ih =>
    rw [climbProof, climbProofOver, ih, ih]
    rfl

theorem merkleRootFromLeaves_eq : merkleRootFromLeaves = rootOver sha256Hashing :=
  funext fun leaves => climbLevels_eq leaves.length leaves

theorem verifyCarlMerkleInclusion_eq :
    verifyCarlMerkleInclusion = verifyInclusionOver sha256Hashing := by
  funext leafHash proof rootHash
  rw [verifyCarlMerkleInclusion, verifyInclusionOver, climbProof_eq]

/-- **The proof of a leaf verifies.** -/
theorem verify_siblings {leaves : List Bytes} (hd : ∀ x ∈ leaves, IsDigest x) {pos : Nat}
    (hpos : pos < leaves.length) :
    verifyCarlMerkleInclusion (leaves.getD pos []) (siblings leaves.length leaves pos)
      (merkleRootFromLeaves leaves) = .ok () := by
  rw [verifyCarlMerkleInclusion_eq, merkleRootFromLeaves_eq, siblings_eq]
  exact verify_proofOver (H := sha256Hashing) (by decide) (fun x hx => (hd x hx).ne_nil) hpos

/-- The root of some leaves is a digest. -/
theorem isDigest_climbLevels (rounds : Nat) {level : List Bytes} (hne : level ≠ [])
    (hd : ∀ x ∈ level, IsDigest x) : IsDigest (climbLevels rounds level) := by
  induction rounds generalizing level with
  | zero =>
    cases level with
    | nil => exact absurd rfl hne
    | cons x level => exact hd x List.mem_cons_self
  | succ rounds ih =>
    rw [climbLevels]
    split
    · rename_i hlen
      refine ih ?_ ?_
      · apply List.ne_nil_of_length_pos
        rw [nextLevel_eq, Hashing.length_nextLevel]
        omega
      · intro x hx
        rw [nextLevel_eq] at hx
        obtain ⟨t, -, rfl⟩ := List.mem_map.1 hx
        exact ⟨t, rfl⟩
    · cases level with
      | nil => exact absurd rfl hne
      | cons x level => exact hd x List.mem_cons_self

/-! ## Soundness -/

/-- The strings hashed for the root of the leaves of `xs`. -/
def hashedForRoot (H : Hashing UInt8) (xs : List Bytes) : List Bytes :=
  xs.map (H.leafTag ++ ·) ++ H.treeTexts xs.length (xs.map H.leaf)

/-- The strings hashed for the leaf of `x` and for the steps of a proof. -/
def hashedForCheck (H : Hashing UInt8) (x : Bytes) (proof : List Bytes) : List Bytes :=
  (H.leafTag ++ x) :: H.climbTexts (H.leaf x) (proof.map readStep)

/-- What verifies was hashed into the root, or there is a collision. Without leaves there is no
root that a hash is equal to. -/
theorem mem_of_verify {H : Hashing UInt8} (hwidth : 0 < H.width) {xs : List Bytes} {x : Bytes}
    {proof : List Bytes}
    (h : verifyInclusionOver H (H.leaf x) proof (rootOver H (xs.map H.leaf)) = .ok ()) :
    x ∈ xs ∨ H.Collision (hashedForRoot H xs ++ hashedForCheck H x proof) := by
  have hclimb := climbProofOver_eq (verifyInclusionOver_ok.1 h)
  rw [rootOver, List.length_map] at hclimb
  by_cases hne : xs = []
  · have hhash : ∀ path s, ∃ t, H.climb (H.hash s) path = H.hash t := by
      intro path
      induction path with
      | nil => exact fun s => ⟨s, rfl⟩
      | cons step rest ih => exact fun s => ih _
    obtain ⟨t, ht⟩ := hhash (proof.map readStep) (H.leafTag ++ x)
    have hlen := congrArg List.length (ht.symm.trans hclimb)
    rw [H.length_hash, hne] at hlen
    exact absurd hlen (Nat.ne_of_gt hwidth)
  · exact Hashing.sound hne xs.length hclimb

/-- Proofs of inclusion are complete and sound: every leaf has one, and a leaf with one is a leaf,
or two strings that were hashed for the root and the check have one hash. -/
def CompleteAndSound (H : Hashing UInt8) (hashLeaf : Bytes → Bytes) (root : List Bytes → Bytes)
    (proofOf : List Bytes → Nat → List Bytes)
    (verify : Bytes → List Bytes → Bytes → Except Status Unit) : Prop :=
  (∀ leaves : List Bytes, (∀ x ∈ leaves, x.length = 64) → ∀ pos, pos < leaves.length →
    verify (leaves.getD pos []) (proofOf leaves pos) (root leaves) = .ok ()) ∧
  (∀ xs x proof, verify (hashLeaf x) proof (root (xs.map hashLeaf)) = .ok () →
    x ∈ xs ∨ H.Collision (hashedForRoot H xs ++ hashedForCheck H x proof))

/-- **Inclusion proofs are complete and sound**, over any hash to 64 characters, and as
`rar_merkle.cc` makes and verifies them. -/
theorem inclusion_proofs :
    (∀ (hash : Bytes → Bytes) (h64 : ∀ s, (hash s).length = 64),
      CompleteAndSound (carlHashing hash h64) (carlHashing hash h64).leaf
        (rootOver (carlHashing hash h64)) (proofOver (carlHashing hash h64))
        (verifyInclusionOver (carlHashing hash h64))) ∧
    CompleteAndSound sha256Hashing carlMerkleHashLeaf merkleRootFromLeaves
      (fun leaves pos => siblings leaves.length leaves pos) verifyCarlMerkleInclusion := by
  have hany : ∀ (hash : Bytes → Bytes) (h64 : ∀ s, (hash s).length = 64),
      CompleteAndSound (carlHashing hash h64) (carlHashing hash h64).leaf
        (rootOver (carlHashing hash h64)) (proofOver (carlHashing hash h64))
        (verifyInclusionOver (carlHashing hash h64)) := by
    intro hash h64
    have hwidth : 0 < (carlHashing hash h64).width := Nat.succ_pos 63
    refine ⟨fun leaves hd pos hpos => verify_proofOver hwidth (fun x hx => ?_) hpos,
      fun xs x proof h => mem_of_verify hwidth h⟩
    exact List.ne_nil_of_length_pos (by rw [hd x hx]; decide)
  refine ⟨hany, ?_⟩
  have hproof : (fun leaves pos => siblings leaves.length leaves pos) = proofOver sha256Hashing :=
    funext fun leaves => funext fun pos => siblings_eq leaves.length leaves pos
  rw [hproof, merkleRootFromLeaves_eq, verifyCarlMerkleInclusion_eq, carlMerkleHashLeaf_eq]
  exact hany sha256HexString length_sha256HexString

/-- The second of three leaves has a proof, and the leaf it is made of is one of the three, or
there is a collision. -/
theorem inclusion_proofs_three :
    let xs : List Bytes := [[1], [2], [3]]
    let proof := siblings 3 (xs.map carlMerkleHashLeaf) 1
    [2] ∈ xs ∨ sha256Hashing.Collision
      (hashedForRoot sha256Hashing xs ++ hashedForCheck sha256Hashing [2] proof) := by
  have hlen : ∀ x ∈ [[1], [2], [3]].map carlMerkleHashLeaf, x.length = 64 := by
    intro x hx
    obtain ⟨r, -, rfl⟩ := List.mem_map.1 hx
    exact (isDigest_leaf r).length
  exact inclusion_proofs.2.2 [[1], [2], [3]] [2] _
    (inclusion_proofs.2.1 ([[1], [2], [3]].map carlMerkleHashLeaf) hlen 1 (by decide))

end EBTree.Audit
