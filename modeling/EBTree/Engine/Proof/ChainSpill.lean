import EBTree.Engine.ChainSpill
import EBTree.Engine.Proof.Chains

/-!
# The store whose chains spill

`Spilled v w`: the store `v`, whose chains are divided between memory and pager, holds the chains of
`w`, which keeps each as one list. Every operation keeps that, and every lookup agrees
(`Spilled.append`, `Spilled.compactBelow`, `Spilled.head`).

* `run_chains_retain`: in every run a chain grows, its head is the newest version ever appended, and
  the floor at every snapshot from all compaction bounds on is the newest version up to it.
* `floor_after_lower_bound`: a bound below an earlier one brings no version back.
-/

set_option autoImplicit false

namespace EBTree.Engine

open Lib VersionChainStore

/-! ## The pager -/

theorem VcsPager.loadOverflow_insert (m : SortedMap Key (List VersionNode)) (key k : Key)
    (nodes : List VersionNode) :
    (⟨m.insert key nodes⟩ : VcsPager).loadOverflow k =
      if k = key then nodes else (⟨m⟩ : VcsPager).loadOverflow k := by
  unfold loadOverflow
  rw [SortedMap.find?_insert]
  split <;> rfl

/-- The pager takes a node above those it holds. -/
theorem VcsPager.appendOverflow_ok (p : VcsPager) {key : Key} (hkey : key ≠ []) {node : VersionNode}
    (habove : ∀ m ∈ p.loadOverflow key, m.lsn < node.lsn) :
    ∃ p', p.appendOverflow key node = (p', .ok ()) ∧
      p'.loadOverflow key = p.loadOverflow key ++ [node] ∧
      ∀ k, k ≠ key → p'.loadOverflow k = p.loadOverflow k := by
  have hc : ¬ (p.loadOverflow key ≠ [] ∧ node.lsn ≤ lastLsn (p.loadOverflow key)) := by
    rintro ⟨hne, hle⟩
    obtain ⟨m, hm, he⟩ := exists_lastLsn hne
    exact absurd (habove m hm) (Nat.not_lt.2 (he ▸ hle))
  refine ⟨⟨p.overflowNodes.insert key (p.loadOverflow key ++ [node])⟩, ?_, ?_, fun k hk => ?_⟩
  · simp only [appendOverflow, if_neg hkey, if_neg hc]
  · rw [loadOverflow_insert, if_pos rfl]
  · rw [loadOverflow_insert, if_neg hk]

/-- The next node of a chain that grows goes to the pager, and the chain stays as it is. -/
theorem VcsPager.appendOverflow_next (p : VcsPager) {key : Key} (hkey : key ≠ []) {node : VersionNode}
    {nodes : List VersionNode} (hinc : Increasing (p.loadOverflow key ++ (node :: nodes))) :
    ∃ p', p.appendOverflow key node = (p', .ok ()) ∧
      p'.loadOverflow key ++ nodes = p.loadOverflow key ++ (node :: nodes) ∧
      Increasing (p'.loadOverflow key ++ nodes) ∧
      ∀ k, k ≠ key → p'.loadOverflow k = p.loadOverflow k := by
  have habove : ∀ m ∈ p.loadOverflow key, m.lsn < node.lsn := fun m hm =>
    (List.pairwise_append.1 hinc).2.2 m hm node List.mem_cons_self
  obtain ⟨p', happ, hload, hother⟩ := p.appendOverflow_ok hkey habove
  have hmoved : p'.loadOverflow key ++ nodes = p.loadOverflow key ++ (node :: nodes) := by
    rw [hload, List.append_assoc]
    rfl
  exact ⟨p', happ, hmoved, hmoved ▸ hinc, hother⟩

namespace SpillingChainStore

/-- **Spilling moves nodes**, and leaves the chain as it was. -/
theorem spill_spec {p : VcsPager} {key : Key} (hkey : key ≠ []) {nodes : List VersionNode}
    (hinc : Increasing (p.loadOverflow key ++ nodes)) :
    (spill p key nodes).1.loadOverflow key ++ (spill p key nodes).2 =
        p.loadOverflow key ++ nodes ∧
      (nodes ≠ [] → (spill p key nodes).2 ≠ []) ∧
      ∀ k, k ≠ key → (spill p key nodes).1.loadOverflow k = p.loadOverflow k := by
  induction nodes generalizing p with
  | nil => exact ⟨rfl, fun h => h, fun _ _ => rfl⟩
  | cons node nodes ih =>
    rw [spill]
    split
    · rename_i hlen
      obtain ⟨p', happ, hmoved, hinc', hother⟩ := p.appendOverflow_next hkey hinc
      obtain ⟨hsame, hne, hrest⟩ := ih hinc'
      rw [happ]
      refine ⟨hsame.trans hmoved, fun _ => hne fun hnil => ?_, fun k hk =>
        (hrest k hk).trans (hother k hk)⟩
      rw [hnil, List.length_singleton, kVcsInlineMax] at hlen
      omega
    · exact ⟨rfl, fun h => h, fun _ _ => rfl⟩

/-! ## Refinement -/

/-- The store holds the chains of `w`, and a chain that is not empty has nodes inline. -/
structure Spilled (v : SpillingChainStore) (w : VersionChainStore) : Prop where
  merged : ∀ k, v.mergedChain k = w.mergedChain k
  inline : ∀ k, v.inlineNodes k = [] → v.overflow k = []

variable {v : SpillingChainStore} {w : VersionChainStore} {key : Key} {lsn prevLsn : Nat}

theorem inlineNodes_insert (m : SortedMap Key (List VersionNode)) (pager : Option VcsPager)
    (key k : Key) (nodes : List VersionNode) :
    (⟨m.insert key nodes, pager⟩ : SpillingChainStore).inlineNodes k =
      if k = key then nodes else (⟨m, pager⟩ : SpillingChainStore).inlineNodes k := by
  unfold inlineNodes
  rw [SortedMap.find?_insert]
  split <;> rfl

/-- The entry `Append` makes for a key on its way leaves the chains as they are. -/
theorem inlineNodes_entry (v : SpillingChainStore) (key k : Key) :
    (⟨v.chains.insert key (v.inlineNodes key), v.pager⟩ : SpillingChainStore).inlineNodes k =
      v.inlineNodes k := by
  rw [inlineNodes_insert]
  split
  · rename_i hk
    rw [hk]
  · rfl

/-- What `Append` can do: leave every chain as it was, or put a node at the end of one and spill. -/
theorem append_cases (v : SpillingChainStore) (key : Key) (lsn prevLsn : Nat) :
    ((v.append key lsn prevLsn).1.pager = v.pager ∧
        ∀ k, (v.append key lsn prevLsn).1.inlineNodes k = v.inlineNodes k) ∨
      (key ≠ [] ∧ v.append key lsn prevLsn =
        ((⟨(v.chains.insert key (v.inlineNodes key)).insert key
          (v.inlineNodes key ++ [⟨lsn, prevLsn⟩]), v.pager⟩ : SpillingChainStore).maybeSpill key,
          .ok ())) := by
  unfold SpillingChainStore.append
  split
  · exact .inl ⟨rfl, fun _ => rfl⟩
  rename_i hkey
  split
  · exact .inl ⟨rfl, fun _ => rfl⟩
  simp only
  split
  · exact .inl ⟨rfl, v.inlineNodes_entry key⟩
  split
  · exact .inl ⟨rfl, v.inlineNodes_entry key⟩
  · exact .inr ⟨hkey, rfl⟩

/-- `MaybeSpill` leaves every chain as it was. -/
theorem maybeSpill_spec (v : SpillingChainStore) (hkey : key ≠ [])
    (hinc : Increasing (v.mergedChain key)) :
    (∀ k, (v.maybeSpill key).mergedChain k = v.mergedChain k) ∧
      (v.inlineNodes key ≠ [] → (v.maybeSpill key).inlineNodes key ≠ []) ∧
      ∀ k, k ≠ key → (v.maybeSpill key).inlineNodes k = v.inlineNodes k := by
  obtain ⟨chains, pager⟩ := v
  cases pager with
  | none => exact ⟨fun _ => rfl, fun h => h, fun _ _ => rfl⟩
  | some p =>
    obtain ⟨hsame, hne, hother⟩ := spill_spec hkey hinc
    have hinl : ∀ k, (maybeSpill ⟨chains, some p⟩ key).inlineNodes k =
        if k = key then (spill p key (inlineNodes ⟨chains, some p⟩ key)).2
        else inlineNodes ⟨chains, some p⟩ k := fun k => inlineNodes_insert _ _ _ _ _
    refine ⟨fun k => ?_, fun h => ?_, fun k hk => ?_⟩
    · rw [mergedChain, hinl]
      by_cases hk : k = key
      · subst hk
        rw [if_pos rfl]
        exact hsame
      · rw [if_neg hk]
        exact congrArg (· ++ _) (hother k hk)
    · rw [hinl, if_pos rfl]
      exact hne h
    · rw [hinl, if_neg hk]

/-- **Appends refine**: the same status, and the same chains after it. -/
theorem Spilled.append (hs : Spilled v w) (ho : Ordered w) (key : Key) (lsn prevLsn : Nat) :
    (v.append key lsn prevLsn).2 = (w.append key lsn prevLsn).2 ∧
      Spilled (v.append key lsn prevLsn).1 (w.append key lsn prevLsn).1 := by
  by_cases hkey : key = []
  · rw [SpillingChainStore.append, VersionChainStore.append, if_pos hkey, if_pos hkey]
    exact ⟨rfl, hs⟩
  by_cases h0 : lsn = 0
  · rw [SpillingChainStore.append, VersionChainStore.append, if_neg hkey, if_neg hkey, if_pos h0, if_pos h0]
    exact ⟨rfl, hs⟩
  have hinc := ho.increasing key
  rw [← hs.merged key] at hinc
  -- the chain entry that is made on the way
  have hentry := v.inlineNodes_entry key
  have hkept : Spilled ⟨v.chains.insert key (v.inlineNodes key), v.pager⟩ w :=
    ⟨fun k => (congrArg (v.overflow k ++ ·) (hentry k)).trans (hs.merged k),
      fun k hk => hs.inline k ((hentry k).symm.trans hk)⟩
  -- both stores compare with the last node of the whole chain
  have hlast : w.mergedChain key ≠ [] ∧ lsn ≤ lastLsn (w.mergedChain key) ↔
      v.inlineNodes key ≠ [] ∧ lsn ≤ lastLsn (v.inlineNodes key) := by
    rw [← hs.merged key, mergedChain]
    by_cases hi : v.inlineNodes key = []
    · simp [hi, hs.inline key hi]
    · have hl : lastLsn (v.overflow key ++ v.inlineNodes key) = lastLsn (v.inlineNodes key) := by
        unfold lastLsn
        rw [List.getLast?_append_of_ne_nil _ hi]
      rw [hl]
      simp [hi]
  have hover : ¬ (v.inlineNodes key ≠ [] ∧ lsn ≤ lastLsn (v.inlineNodes key)) →
      ¬ (v.overflow key ≠ [] ∧ lsn ≤ lastLsn (v.overflow key)) := by
    rintro hno ⟨hne, hle⟩
    have hi : v.inlineNodes key ≠ [] := fun h => hne (hs.inline key h)
    obtain ⟨m, hm, he⟩ := exists_lastLsn hne
    obtain ⟨n, hn, hen⟩ := exists_lastLsn hi
    have hlt := (List.pairwise_append.1 hinc).2.2 m hm n hn
    exact hno ⟨hi, by omega⟩
  rw [SpillingChainStore.append, VersionChainStore.append, if_neg hkey, if_neg hkey, if_neg h0, if_neg h0]
  simp only
  by_cases hc : v.inlineNodes key ≠ [] ∧ lsn ≤ lastLsn (v.inlineNodes key)
  · rw [if_pos hc, if_pos (hlast.2 hc)]
    exact ⟨rfl, hkept⟩
  · have hpager : (⟨v.chains.insert key (v.inlineNodes key), v.pager⟩ :
        SpillingChainStore).overflow key = v.overflow key := rfl
    rw [if_neg hc, hpager, if_neg (hover hc), if_neg fun h => hc (hlast.1 h)]
    refine ⟨rfl, ?_⟩
    have hnew : ∀ k, (⟨(v.chains.insert key (v.inlineNodes key)).insert key
        (v.inlineNodes key ++ [⟨lsn, prevLsn⟩]), v.pager⟩ : SpillingChainStore).inlineNodes k =
        if k = key then v.inlineNodes key ++ [⟨lsn, prevLsn⟩] else v.inlineNodes k := by
      intro k
      rw [inlineNodes_insert, hentry]
    have hmerged : ∀ k, (⟨(v.chains.insert key (v.inlineNodes key)).insert key
        (v.inlineNodes key ++ [⟨lsn, prevLsn⟩]), v.pager⟩ : SpillingChainStore).mergedChain k =
        (⟨w.chains.insert key (w.mergedChain key ++ [⟨lsn, prevLsn⟩])⟩ :
          VersionChainStore).mergedChain k := by
      intro k
      rw [mergedChain, hnew, VersionChainStore.mergedChain, SortedMap.find?_insert]
      change v.overflow k ++ _ = _
      split
      · rename_i hk
        subst hk
        rw [Option.getD_some, ← hs.merged k, mergedChain, List.append_assoc]
      · exact hs.merged k
    have hgrows : Increasing (w.mergedChain key ++ [⟨lsn, prevLsn⟩]) := by
      refine (ho.increasing key).snoc fun m hm => ?_
      have hne : w.mergedChain key ≠ [] := List.ne_nil_of_mem hm
      exact Nat.lt_of_le_of_lt (le_lastLsn (ho.increasing key) hm)
        (Nat.not_le.1 fun hle => hc (hlast.1 ⟨hne, hle⟩))
    obtain ⟨hsame, hne, hother⟩ := maybeSpill_spec _ hkey (show Increasing (mergedChain
      ⟨(v.chains.insert key (v.inlineNodes key)).insert key
        (v.inlineNodes key ++ [⟨lsn, prevLsn⟩]), v.pager⟩ key) by
          rw [hmerged key, VersionChainStore.mergedChain, SortedMap.find?_insert, if_pos rfl]
          exact hgrows)
    refine ⟨fun k => (hsame k).trans (hmerged k), fun k hk => ?_⟩
    by_cases hkk : k = key
    · subst hkk
      refine absurd hk (hne ?_)
      rw [hnew, if_pos rfl]
      simp
    · have hk' := hk
      rw [hother k hkk, hnew, if_neg hkk] at hk'
      have hm := hsame k
      rw [mergedChain, hk, mergedChain, hnew, if_neg hkk, hk', List.append_nil, List.append_nil] at hm
      exact hm.trans (hs.inline k hk')

theorem Spilled.appendAll (hs : Spilled v w) (ho : Ordered w) (key : Key) (prev : Nat)
    (ns : List VersionNode) : Spilled (v.appendAll key prev ns) (w.appendAll key prev ns) ∧
      Ordered (w.appendAll key prev ns) := by
  induction ns generalizing v w prev with
  | nil => exact ⟨hs, ho⟩
  | cons n ns ih =>
    obtain ⟨hst, hs'⟩ := hs.append ho key n.lsn prev
    have ho' := ho.append (Prod.eta (w.append key n.lsn prev)).symm
    rw [SpillingChainStore.appendAll, VersionChainStore.appendAll]
    cases hv : v.append key n.lsn prev with
    | mk v' stv =>
      cases hw : w.append key n.lsn prev with
      | mk w' stw =>
        rw [hv, hw] at hst hs'
        rw [hw] at ho'
        cases hst
        cases stv with
        | error e => exact ⟨hs', ho'⟩
        | ok u => exact ih hs' ho' n.lsn

theorem Spilled.foldl {V : Type} (l : List (Key × V)) (g : Key × V → List VersionNode)
    (hs : Spilled v w) (ho : Ordered w) :
    Spilled (l.foldl (fun v c => v.appendAll c.1 0 (g c)) v)
      (l.foldl (fun w c => w.appendAll c.1 0 (g c)) w) := by
  induction l generalizing v w with
  | nil => exact hs
  | cons c l ih =>
    obtain ⟨hs', ho'⟩ := hs.appendAll ho c.1 0 (g c)
    exact ih hs' ho'

theorem Spilled.clear (v : SpillingChainStore) : Spilled v.clear VersionChainStore.empty := by
  obtain ⟨chains, pager⟩ := v
  cases pager <;> exact ⟨fun _ => rfl, fun _ _ => rfl⟩

/-- **Compaction refines.** -/
theorem Spilled.compactBelow (hs : Spilled v w) (ho : Ordered w) (lsn : Nat) :
    Spilled (v.compactBelow lsn) (w.compactBelow lsn) := by
  by_cases h0 : lsn = 0
  · rw [SpillingChainStore.compactBelow, VersionChainStore.compactBelow, if_pos h0, if_pos h0]
    exact hs
  have hfold := Spilled.foldl v.chains.entries
    (fun c => VersionChainStore.compacted (v.mergedChain c.1) lsn) (Spilled.clear v) ordered_empty
  rw [SpillingChainStore.compactBelow, if_neg h0]
  refine ⟨fun k => (hfold.merged k).trans ?_, hfold.inline⟩
  rw [mergedChain_compactBelow ho h0, mergedChain_foldl_appendAll v.chains
    (fun c => increasing_compacted (hs.merged c.1 ▸ ho.increasing c.1) lsn)
    (fun c n hn => ho.positive c.1 n (hs.merged c.1 ▸ mem_compacted hn))
    (fun c hc => by rw [hc, hs.merged, ho.named, compacted_nil])]
  cases hc : v.chains.find? k with
  | none =>
    have hinl : v.inlineNodes k = [] := by rw [inlineNodes, hc, Option.getD_none]
    have hnil : w.mergedChain k = [] := by
      rw [← hs.merged k, mergedChain, hs.inline k hinl, hinl, List.append_nil]
    rw [hnil, compacted_nil, relink]
  | some nodes => exact congrArg (fun c => relink 0 (compacted c lsn)) (hs.merged k)

theorem Spilled.floor (hs : Spilled v w) (key : Key) (snapshotLsn : Nat) :
    v.floor key snapshotLsn = w.floor key snapshotLsn := by
  rw [SpillingChainStore.floor, VersionChainStore.floor, hs.merged key]

theorem Spilled.head (hs : Spilled v w) (key : Key) : v.head key = w.head key := by
  rw [SpillingChainStore.head, VersionChainStore.head, ← hs.merged key, mergedChain]
  split
  · rename_i hne
    unfold lastLsn
    rw [List.getLast?_append_of_ne_nil _ hne]
  · rename_i hnil
    rw [not_not.1 hnil, List.append_nil]

/-! ## Runs -/

/-- The chains the store holds grow and retain what was appended, up to the largest bound. -/
structure Inv (v : SpillingChainStore) (a : Asked) (w : VersionChainStore) : Prop where
  spilled : Spilled v w
  ordered : Ordered w
  retains : ∀ k, Retains (a.appended k) (a.bounds.foldr max 0) (w.mergedChain k)

theorem Inv.append {a : Asked} (hi : Inv v a w) (key : Key) (lsn prevLsn : Nat) :
    Inv (v.append key lsn prevLsn).1 (a.after v (.append key lsn prevLsn))
      (w.append key lsn prevLsn).1 := by
  obtain ⟨hst, hs⟩ := hi.spilled.append hi.ordered key lsn prevLsn
  have ho := hi.ordered.append (Prod.eta (w.append key lsn prevLsn)).symm
  refine ⟨hs, ho, fun k => ?_⟩
  rw [Asked.after, hst]
  cases hw : w.append key lsn prevLsn with
  | mk w' st =>
    cases st with
    | error e =>
      rw [append_error hw]
      exact hi.retains k
    | ok u =>
      change Retains (Function.update a.appended key (a.appended key ++ [lsn]) k)
        (a.bounds.foldr max 0) (w'.mergedChain k)
      rw [mergedChain_append_ok hw]
      by_cases hk : k = key
      · subst hk
        rw [Function.update_self, if_pos rfl]
        exact (hi.retains k).append ⟨lsn, prevLsn⟩
      · rw [Function.update_of_ne hk, if_neg hk]
        exact hi.retains k

theorem Inv.compactBelow {a : Asked} (hi : Inv v a w) (lsn : Nat) :
    Inv (v.compactBelow lsn) (a.after v (.compactBelow lsn)) (w.compactBelow lsn) := by
  refine ⟨hi.spilled.compactBelow hi.ordered lsn, hi.ordered.compactBelow lsn, fun k => ?_⟩
  change Retains (a.appended k) (max lsn (a.bounds.foldr max 0)) _
  rw [Nat.max_comm]
  by_cases h0 : lsn = 0
  · rw [h0, Nat.max_zero, VersionChainStore.compactBelow, if_pos rfl]
    exact hi.retains k
  · exact ((hi.retains k).compacted (hi.ordered.positive k) lsn).of_lsns
      (lsns_compactBelow hi.ordered h0 k)

theorem Run.inv {a : Asked} (hr : Run v a) : ∃ w, Inv v a w := by
  induction hr with
  | empty pager h =>
    refine ⟨VersionChainStore.empty, ?_, ordered_empty, fun k => Retains.empty _⟩
    cases pager with
    | none => exact ⟨fun _ => rfl, fun _ _ => rfl⟩
    | some p =>
      rw [h p rfl]
      exact ⟨fun _ => rfl, fun _ _ => rfl⟩
  | step op _ ih =>
    obtain ⟨w, hi⟩ := ih
    cases op with
    | append key lsn prevLsn => exact ⟨_, hi.append key lsn prevLsn⟩
    | compactBelow lsn => exact ⟨_, hi.compactBelow lsn⟩

theorem foldr_max_le {s : Nat} {ps : List Nat} (h : ∀ p ∈ ps, p ≤ s) : ps.foldr max 0 ≤ s := by
  induction ps with
  | nil => exact Nat.zero_le _
  | cons p ps ih =>
    exact max_le (h p List.mem_cons_self) (ih fun q hq => h q (List.mem_cons_of_mem _ hq))

theorem run_runOps (ops : List Op) : Run (runOps ops).1 (runOps ops).2 := by
  induction ops using List.reverseRecOn with
  | nil => exact .empty (some VcsPager.empty) fun p hp => (Option.some.inj hp).symm
  | append_singleton ops op ih =>
    rw [runOps, List.foldl_append]
    exact ih.step op

/-- `m` is the largest of the numbers, `0` without one. -/
def IsLargest (m : Nat) (ns : List Nat) : Prop := (m = 0 ∨ m ∈ ns) ∧ ∀ n ∈ ns, n ≤ m

/-- **The chains are right** in every run: they grow, the head is the newest version ever appended,
and from every compaction bound on the floor is the newest version up to the snapshot. -/
theorem run_chains_retain {a : Asked} (hr : Run v a) (key : Key) :
    (v.mergedChain key).Pairwise (·.lsn < ·.lsn) ∧ IsLargest (v.head key) (a.appended key) ∧
      ∀ s, (∀ p ∈ a.bounds, p ≤ s) →
        IsLargest (v.floor key s) ((a.appended key).filter (· ≤ s)) := by
  obtain ⟨w, hi⟩ := hr.inv
  have hret := hi.retains key
  refine ⟨?_, ?_, fun s hs => ?_⟩
  · rw [hi.spilled.merged key]
    exact hi.ordered.increasing key
  · rw [hi.spilled.head key]
    exact hret.head (hi.ordered.increasing key)
  · obtain ⟨hmem, hmax⟩ := hret.floor (foldr_max_le hs)
    rw [hi.spilled.floor key s]
    refine ⟨hmem.imp id fun ⟨hm, hle⟩ => List.mem_filter.2 ⟨hm, decide_eq_true hle⟩,
      fun n hn => ?_⟩
    obtain ⟨hn, hle⟩ := List.mem_filter.1 hn
    exact hmax n hn (of_decide_eq_true hle)

/-- Nine versions, one of which spills, and a compaction. -/
def nineVersions : List Op :=
  (List.range 9).map (fun n => Op.append [1] (n + 1) n) ++ [.compactBelow 4]

theorem run_chains_retain_nine : (runOps nineVersions).2.appended [1] = [1, 2, 3, 4, 5, 6, 7, 8, 9] ∧
    IsLargest ((runOps nineVersions).1.head [1]) ((runOps nineVersions).2.appended [1]) :=
  ⟨by decide +kernel, (run_chains_retain (run_runOps nineVersions) [1]).2.1⟩

/-- **A lower bound brings nothing back**: after a compaction to 3, one to 1 leaves no version up
to 2. -/
theorem floor_after_lower_bound : ¬ ∀ v a, Run v a → ∀ key s,
    (∀ p, a.bounds.head? = some p → p ≤ s) →
      IsLargest (v.floor key s) ((a.appended key).filter (· ≤ s)) := by
  intro hall
  have hlargest := hall _ _ (run_runOps [.append [1] 1 0, .append [1] 2 1, .append [1] 3 2,
    .compactBelow 3, .compactBelow 1]) [1] 2 fun p hp => by
      cases hp
      decide
  exact absurd (hlargest.2 2 (by decide +kernel)) (by decide +kernel)

end SpillingChainStore
end EBTree.Engine
