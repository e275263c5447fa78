import EBTree.Engine.VersionChain

/-!
# Chains that grow

A chain is `Increasing`; every operation of the store keeps that (`Ordered`).

* `append_ok_iff`, `Ordered.append`: what a chain accepts is above what it holds.
* `lsns_compactBelow`, `retains_compacted`: what compaction leaves of a chain, and that it leaves the
  newest version up to its bound.
* `Retains.floor`, `Retains.head`: lookups in a chain that retains the versions ever appended, as far
  as a bound allows.
-/

set_option autoImplicit false

namespace EBTree.Engine

open Lib

/-- The LSNs of the nodes grow. -/
def Increasing (chain : List VersionNode) : Prop := chain.Pairwise (·.lsn < ·.lsn)

/-- A node at the end of a chain that grows. -/
theorem Increasing.snoc {chain : List VersionNode} (h : Increasing chain) {n : VersionNode}
    (habove : ∀ m ∈ chain, m.lsn < n.lsn) : Increasing (chain ++ [n]) := by
  refine List.pairwise_append.2 ⟨h, List.pairwise_singleton _ _, fun m hm x hx => ?_⟩
  rw [List.mem_singleton.1 hx]
  exact habove m hm

/-- What a lookup can find in the chain is what was ever appended, from the newest version up to the
bound on. -/
structure Retains (appended : List Nat) (bound : Nat) (chain : List VersionNode) : Prop where
  mem : ∀ n ∈ chain, n.lsn ∈ appended
  kept : ∀ lsn ∈ appended, ∃ n ∈ chain, lsn ≤ n.lsn ∧ n.lsn ≤ max lsn bound

/-! ## Lookups -/

namespace VersionChainStore

theorem lastLsn_append (chain : List VersionNode) (n : VersionNode) :
    lastLsn (chain ++ [n]) = n.lsn := by
  simp [lastLsn]

theorem exists_lastLsn {chain : List VersionNode} (h : chain ≠ []) :
    ∃ n ∈ chain, n.lsn = lastLsn chain := by
  have hn := List.getLast?_eq_some_getLast h
  exact ⟨chain.getLast h, List.getLast_mem h, by simp [lastLsn, hn]⟩

theorem le_lastLsn {chain : List VersionNode} (h : Increasing chain) {n : VersionNode}
    (hn : n ∈ chain) : n.lsn ≤ lastLsn chain := by
  induction chain using List.reverseRecOn with
  | nil => exact absurd hn List.not_mem_nil
  | append_singleton chain last _ =>
    rw [lastLsn_append]
    rcases List.mem_append.1 hn with hn | hn
    · exact Nat.le_of_lt ((List.pairwise_append.1 h).2.2 n hn last (List.mem_singleton_self last))
    · rw [List.mem_singleton.1 hn]

end VersionChainStore

open VersionChainStore

namespace Retains

variable {appended : List Nat} {bound : Nat} {chain : List VersionNode}

theorem empty (bound : Nat) : Retains [] bound [] :=
  ⟨fun _ hn => absurd hn List.not_mem_nil, fun _ hn => absurd hn List.not_mem_nil⟩

/-- **The floor at a snapshot** from the bound on is the newest version up to it that was ever
appended. -/
theorem floor (hr : Retains appended bound chain) {s : Nat} (hs : bound ≤ s) :
    (floorOf chain s = 0 ∨ floorOf chain s ∈ appended ∧ floorOf chain s ≤ s) ∧
      ∀ lsn ∈ appended, lsn ≤ s → lsn ≤ floorOf chain s := by
  obtain ⟨hmem, hle, hmax⟩ := floorOf_spec chain s
  refine ⟨hmem.imp id fun ⟨n, hn, he⟩ => ⟨he ▸ hr.mem n hn, hle⟩, fun lsn hlsn hlt => ?_⟩
  obtain ⟨n, hn, hge, hbound⟩ := hr.kept lsn hlsn
  exact Nat.le_trans hge (hmax n hn (Nat.le_trans hbound (max_le hlt hs)))

/-- **The head** is the newest version ever appended. -/
theorem head (hr : Retains appended bound chain) (hinc : Increasing chain) :
    (lastLsn chain = 0 ∨ lastLsn chain ∈ appended) ∧ ∀ lsn ∈ appended, lsn ≤ lastLsn chain := by
  refine ⟨?_, fun lsn hlsn => ?_⟩
  · rcases Nat.eq_zero_or_pos (lastLsn chain) with h0 | hpos
    · exact .inl h0
    · obtain ⟨n, hn, he⟩ := lastLsn_mem hpos
      exact .inr (he ▸ hr.mem n hn)
  · obtain ⟨n, hn, hge, -⟩ := hr.kept lsn hlsn
    exact Nat.le_trans hge (le_lastLsn hinc hn)

/-- A version is appended. -/
theorem append (hr : Retains appended bound chain) (n : VersionNode) :
    Retains (appended ++ [n.lsn]) bound (chain ++ [n]) where
  mem m hm := by
    rcases List.mem_append.1 hm with hm | hm
    · exact List.mem_append_left _ (hr.mem m hm)
    · rw [List.mem_singleton.1 hm]
      exact List.mem_append_right _ (List.mem_singleton_self _)
  kept lsn hlsn := by
    rcases List.mem_append.1 hlsn with hlsn | hlsn
    · obtain ⟨m, hm, hle⟩ := hr.kept lsn hlsn
      exact ⟨m, List.mem_append_left _ hm, hle⟩
    · rw [List.mem_singleton.1 hlsn]
      exact ⟨n, List.mem_append_right _ (List.mem_singleton_self _), Nat.le_refl _,
        Nat.le_max_left _ _⟩

end Retains

/-! ## Compaction -/

namespace VersionChainStore

theorem mem_compacted_of_ge {chain : List VersionNode} {lsn : Nat} {n : VersionNode} (hn : n ∈ chain)
    (hge : lsn ≤ n.lsn) : n ∈ compacted chain lsn := by
  have hkept : n ∈ chain.filter fun n => decide (lsn ≤ n.lsn) :=
    List.mem_filter.2 ⟨hn, decide_eq_true hge⟩
  simp only [compacted, List.mem_mergeSort]
  split
  · exact List.mem_append_left _ hkept
  · exact hkept

/-- **Compaction leaves the newest version up to its bound.** -/
theorem exists_compacted_floor {chain : List VersionNode} {lsn : Nat} {n : VersionNode}
    (hn : n ∈ chain) (hpos : 0 < n.lsn) (hlt : n.lsn < lsn) :
    ∃ m ∈ compacted chain lsn, n.lsn ≤ m.lsn ∧ m.lsn ≤ lsn := by
  obtain ⟨hmem, hle, hmax⟩ := floorOf_spec chain lsn
  have hfloor : n.lsn ≤ floorOf chain lsn := hmax n hn (Nat.le_of_lt hlt)
  have hfpos : 0 < floorOf chain lsn := Nat.lt_of_lt_of_le hpos hfloor
  obtain ⟨f, hf, hfl⟩ := hmem.resolve_left (Nat.ne_of_gt hfpos)
  by_cases hvis : (chain.filter fun n => decide (lsn ≤ n.lsn)).any (fun n => decide (n.lsn ≤ lsn)) =
      true
  · -- a version at the bound itself
    obtain ⟨m, hm, hml⟩ := List.any_eq_true.1 hvis
    obtain ⟨hmc, hge⟩ := List.mem_filter.1 hm
    exact ⟨m, mem_compacted_of_ge hmc (of_decide_eq_true hge),
      Nat.le_trans (Nat.le_of_lt hlt) (of_decide_eq_true hge), of_decide_eq_true hml⟩
  · have hfind : (chain.find? fun m => decide (m.lsn = floorOf chain lsn)).isSome = true := by
      rw [List.find?_isSome]
      exact ⟨f, hf, decide_eq_true hfl⟩
    obtain ⟨m, hm⟩ := Option.isSome_iff_exists.1 hfind
    have hml : m.lsn = floorOf chain lsn := of_decide_eq_true
      (List.find?_some (p := fun m : VersionNode => decide (m.lsn = floorOf chain lsn)) hm)
    refine ⟨m, ?_, hml ▸ hfloor, hml ▸ hle⟩
    simp only [compacted, List.mem_mergeSort]
    rw [if_pos ⟨hfpos, by simpa using hvis⟩, hm]
    exact List.mem_append_right _ (List.mem_singleton_self m)

theorem pairwise_compacted (chain : List VersionNode) (lsn : Nat) :
    (compacted chain lsn).Pairwise (fun a b => a.lsn ≤ b.lsn) := by
  simp only [compacted]
  refine (@List.pairwise_mergeSort VersionNode (fun a b => decide (a.lsn ≤ b.lsn))
    (fun a b c hab hbc => ?_) (fun a b => ?_) _).imp fun h => of_decide_eq_true h
  · exact decide_eq_true (Nat.le_trans (of_decide_eq_true hab) (of_decide_eq_true hbc))
  · rcases Nat.le_total a.lsn b.lsn with h | h <;> simp [h]

/-- Where the floor is put back, no node that is kept has its LSN. -/
theorem increasing_compacted {chain : List VersionNode} (h : Increasing chain) (lsn : Nat) :
    Increasing (compacted chain lsn) := by
  have hnodup : ((chain.filter fun n => decide (lsn ≤ n.lsn)).map (·.lsn)).Nodup :=
    (List.pairwise_map.2 (h.filter _)).imp fun hlt => Nat.ne_of_lt hlt
  suffices hnd : ((compacted chain lsn).map (·.lsn)).Nodup by
    refine ((pairwise_compacted chain lsn).and (List.pairwise_map.1 hnd)).imp fun hab => ?_
    exact Nat.lt_of_le_of_ne hab.1 hab.2
  simp only [compacted]
  refine ((List.mergeSort_perm _ _).map fun n : VersionNode => n.lsn).nodup_iff.2 ?_
  split
  · rename_i hc
    obtain ⟨hpos, hvis⟩ := hc
    rw [List.map_append]
    refine List.nodup_append.2 ⟨hnodup, ?_, fun a ha b hb hab => ?_⟩
    · cases chain.find? fun n => decide (n.lsn = floorOf chain lsn) <;> simp
    · obtain ⟨n, hn, rfl⟩ := List.mem_map.1 ha
      obtain ⟨m, hm, rfl⟩ := List.mem_map.1 hb
      have hml : m.lsn = floorOf chain lsn := of_decide_eq_true
        (List.find?_some (p := fun m : VersionNode => decide (m.lsn = floorOf chain lsn))
          (Option.mem_toList.1 hm))
      have hle : n.lsn ≤ lsn := by
        rw [hab, hml]
        exact (floorOf_spec chain lsn).2.1
      have hany : (chain.filter fun n => decide (lsn ≤ n.lsn)).any
          (fun n => decide (n.lsn ≤ lsn)) = true := List.any_eq_true.2 ⟨n, hn, decide_eq_true hle⟩
      rw [hany] at hvis
      cases hvis
  · exact hnodup

/-! ## What a chain accepts -/

/-- **An append is accepted** above what the chain holds. -/
theorem append_ok_iff {v : VersionChainStore} {key : Key} {lsn prevLsn : Nat}
    (h : Increasing (v.mergedChain key)) :
    (v.append key lsn prevLsn).2 = .ok () ↔
      key ≠ [] ∧ 0 < lsn ∧ ∀ n ∈ v.mergedChain key, n.lsn < lsn := by
  have hlast : (¬ (v.mergedChain key ≠ [] ∧ lsn ≤ lastLsn (v.mergedChain key))) ↔
      ∀ n ∈ v.mergedChain key, n.lsn < lsn := by
    constructor
    · intro hn n hmem
      have hne : v.mergedChain key ≠ [] := List.ne_nil_of_mem hmem
      exact Nat.lt_of_le_of_lt (le_lastLsn h hmem) (Nat.not_le.1 fun hle => hn ⟨hne, hle⟩)
    · rintro hall ⟨hne, hle⟩
      obtain ⟨n, hn, he⟩ := exists_lastLsn hne
      exact absurd (hall n hn) (Nat.not_lt.2 (he ▸ hle))
  unfold append
  by_cases hk : key = []
  · simp [hk]
  by_cases h0 : lsn = 0
  · simp [hk, h0]
  rw [if_neg hk, if_neg h0]
  by_cases hc : v.mergedChain key ≠ [] ∧ lsn ≤ lastLsn (v.mergedChain key)
  · rw [if_pos hc]
    refine ⟨fun he => ?_, fun hall => absurd hc (hlast.2 hall.2.2)⟩
    cases he
  · rw [if_neg hc]
    exact ⟨fun _ => ⟨hk, Nat.pos_of_ne_zero h0, hlast.1 hc⟩, fun _ => rfl⟩

/-- What an accepted append makes of the chains. -/
theorem append_ok {v v' : VersionChainStore} {key : Key} {lsn prevLsn : Nat}
    (h : v.append key lsn prevLsn = (v', .ok ())) :
    v'.chains = v.chains.insert key (v.mergedChain key ++ [⟨lsn, prevLsn⟩]) := by
  obtain ⟨e, he⟩ | ⟨-, -, he⟩ := v.append_cases key lsn prevLsn
  · cases he.symm.trans h
  · cases he.symm.trans h
    rfl

/-- A refused append leaves the store as it is. -/
theorem append_error {v v' : VersionChainStore} {key : Key} {lsn prevLsn : Nat} {e : Status}
    (h : v.append key lsn prevLsn = (v', .error e)) : v' = v := by
  obtain ⟨e', he⟩ | ⟨-, -, he⟩ := v.append_cases key lsn prevLsn
  · cases he.symm.trans h
    rfl
  · cases he.symm.trans h

/-- Nodes that are put back, each with the one before it as its predecessor. -/
def relink : Nat → List VersionNode → List VersionNode
  | _, [] => []
  | prev, n :: ns => ⟨n.lsn, prev⟩ :: relink n.lsn ns

theorem lsns_relink (prev : Nat) (ns : List VersionNode) :
    (relink prev ns).map (·.lsn) = ns.map (·.lsn) := by
  induction ns generalizing prev with
  | nil => rfl
  | cons n ns ih => rw [relink, List.map_cons, List.map_cons, ih]

/-- The nodes are put back one after the other, when they grow from what is there. -/
theorem mergedChain_appendAll {v : VersionChainStore} {key : Key} (hkey : key ≠ [])
    {ns : List VersionNode} (prev : Nat) (hv : Increasing (v.mergedChain key))
    (hns : Increasing ns) (hpos : ∀ n ∈ ns, 0 < n.lsn)
    (habove : ∀ n ∈ ns, ∀ m ∈ v.mergedChain key, m.lsn < n.lsn) :
    (v.appendAll key prev ns).mergedChain key = v.mergedChain key ++ relink prev ns := by
  induction ns generalizing v prev with
  | nil => exact (List.append_nil _).symm
  | cons n ns ih =>
    obtain ⟨hn, hns'⟩ := List.pairwise_cons.1 hns
    have hok : (v.append key n.lsn prev).2 = .ok () := (append_ok_iff hv).2
      ⟨hkey, hpos n List.mem_cons_self, habove n List.mem_cons_self⟩
    cases ha : v.append key n.lsn prev with
    | mk v' st =>
      rw [ha] at hok
      cases hok
      have hmerged : v'.mergedChain key = v.mergedChain key ++ [⟨n.lsn, prev⟩] := by
        rw [mergedChain, append_ok ha, SortedMap.find?_insert, if_pos rfl, Option.getD_some]
      have hinc : Increasing (v'.mergedChain key) := by
        rw [hmerged]
        exact hv.snoc (habove n List.mem_cons_self)
      have hrest := ih n.lsn hinc hns' (fun m hm => hpos m (List.mem_cons_of_mem _ hm))
        fun m hm x hx => by
          rw [hmerged] at hx
          rcases List.mem_append.1 hx with hx | hx
          · exact habove m (List.mem_cons_of_mem _ hm) x hx
          · rw [List.mem_singleton.1 hx]
            exact hn m hm
      rw [appendAll, ha]
      change (v'.appendAll key n.lsn ns).mergedChain key = _
      rw [hrest, hmerged, relink, List.append_assoc]
      rfl

/-- A key's chain is put back by itself. -/
theorem appendAll_congr {v w : VersionChainStore} {key : Key} {ns : List VersionNode} (prev : Nat)
    (h : v.chains.find? key = w.chains.find? key) :
    (v.appendAll key prev ns).chains.find? key = (w.appendAll key prev ns).chains.find? key := by
  induction ns generalizing v w prev with
  | nil => exact h
  | cons n ns ih =>
    have hm : v.mergedChain key = w.mergedChain key := by rw [mergedChain, h, mergedChain]
    rw [appendAll, appendAll, append, append, hm]
    by_cases hk : key = []
    · simp only [if_pos hk]
      exact h
    by_cases h0 : n.lsn = 0
    · simp only [if_neg hk, if_pos h0]
      exact h
    by_cases hc : w.mergedChain key ≠ [] ∧ n.lsn ≤ lastLsn (w.mergedChain key)
    · simp only [if_neg hk, if_neg h0, if_pos hc]
      exact h
    · simp only [if_neg hk, if_neg h0, if_neg hc]
      refine ih n.lsn ?_
      rw [SortedMap.find?_insert, SortedMap.find?_insert, if_pos rfl, if_pos rfl]

theorem appendAll_other {v : VersionChainStore} {key k : Key} (hk : k ≠ key)
    {ns : List VersionNode} (prev : Nat) :
    (v.appendAll key prev ns).chains.find? k = v.chains.find? k := by
  induction ns generalizing v prev with
  | nil => rfl
  | cons n ns ih =>
    rw [appendAll]
    obtain ⟨e, he⟩ | ⟨-, -, he⟩ := v.append_cases key n.lsn prev
    · rw [he]
    · rw [he]
      refine (ih n.lsn).trans ?_
      rw [SortedMap.find?_insert, if_neg hk]

/-! ## The store -/

/-- Every chain grows, from LSNs above zero, and the empty key has none. -/
structure Ordered (v : VersionChainStore) : Prop where
  increasing : ∀ k, Increasing (v.mergedChain k)
  positive : ∀ k, ∀ n ∈ v.mergedChain k, 0 < n.lsn
  named : v.mergedChain [] = []

theorem ordered_empty : Ordered empty :=
  ⟨fun _ => List.Pairwise.nil, fun _ _ hn => absurd hn List.not_mem_nil, rfl⟩

variable {v v' : VersionChainStore} {key : Key} {lsn prevLsn : Nat}

theorem mergedChain_append_ok (h : v.append key lsn prevLsn = (v', .ok ())) (k : Key) :
    v'.mergedChain k =
      if k = key then v.mergedChain key ++ [⟨lsn, prevLsn⟩] else v.mergedChain k := by
  rw [mergedChain, append_ok h, SortedMap.find?_insert]
  split <;> rfl

theorem Ordered.append (ho : Ordered v) {st : Except Status Unit}
    (h : v.append key lsn prevLsn = (v', st)) : Ordered v' := by
  cases st with
  | error e => exact append_error h ▸ ho
  | ok u =>
    obtain ⟨hkey, hpos, habove⟩ := (append_ok_iff (ho.increasing key)).1 (by rw [h])
    refine ⟨fun k => ?_, fun k n hn => ?_, ?_⟩
    · rw [mergedChain_append_ok h]
      split
      · exact (ho.increasing key).snoc habove
      · exact ho.increasing k
    · rw [mergedChain_append_ok h] at hn
      split at hn
      · rcases List.mem_append.1 hn with hn | hn
        · exact ho.positive key n hn
        · rw [List.mem_singleton.1 hn]
          exact hpos
      · exact ho.positive k n hn
    · rw [mergedChain_append_ok h, if_neg (Ne.symm hkey)]
      exact ho.named

theorem compacted_nil (lsn : Nat) : compacted [] lsn = [] :=
  List.eq_nil_iff_forall_not_mem.2 fun _ hn => absurd (mem_compacted hn) List.not_mem_nil

/-- Chains that are put back key by key, into an empty store. -/
theorem mergedChain_foldl_appendAll {V : Type} (m : SortedMap Key V) {g : Key × V → List VersionNode}
    (hinc : ∀ c, Increasing (g c)) (hpos : ∀ c, ∀ n ∈ g c, 0 < n.lsn)
    (hnamed : ∀ c, c.1 = [] → g c = []) (k : Key) :
    (m.entries.foldl (fun w c => w.appendAll c.1 0 (g c)) empty).mergedChain k =
      match m.find? k with
      | some a => relink 0 (g (k, a))
      | none => [] := by
  have hfold : ∀ (l : List (Key × V)) (w : VersionChainStore),
      (l.foldl (fun w c => w.appendAll c.1 0 (g c)) w).chains =
        l.foldl (fun m c => ((⟨m⟩ : VersionChainStore).appendAll c.1 0 (g c)).chains) w.chains := by
    intro l
    induction l with
    | nil => exact fun _ => rfl
    | cons c l ih => exact fun w => ih _
  have hfind := @SortedMap.find?_foldl_entries _ _ _ _
    (fun m c => ((⟨m⟩ : VersionChainStore).appendAll c.1 0 (g c)).chains)
    (fun m c k hk => appendAll_other hk 0) (fun m m' c hm => appendAll_congr 0 hm)
    (SortedMap.empty) m k
  unfold mergedChain
  rw [hfold, show empty.chains = SortedMap.empty from rfl, hfind]
  cases hc : m.find? k with
  | none => rfl
  | some a =>
    by_cases hk : k = []
    · simp [hnamed (k, a) hk, relink, appendAll]
    · exact mergedChain_appendAll (v := empty) hk 0 List.Pairwise.nil (hinc _) (hpos _)
        (fun _ _ m hm => absurd hm List.not_mem_nil)

/-- **What compaction leaves** of a chain. -/
theorem mergedChain_compactBelow (ho : Ordered v) (hpos : lsn ≠ 0) (k : Key) :
    (v.compactBelow lsn).mergedChain k = relink 0 (compacted (v.mergedChain k) lsn) := by
  have hentries : v.chains.entries.foldl (fun w c => w.appendAll c.1 0 (compacted c.2 lsn)) empty =
      v.chains.entries.foldl (fun w c => w.appendAll c.1 0 (compacted (v.mergedChain c.1) lsn))
        empty := by
    refine List.foldl_ext _ _ _ fun w c hc => ?_
    rw [mergedChain, SortedMap.mem_entries_iff.1 hc, Option.getD_some]
  rw [compactBelow, if_neg hpos, hentries, mergedChain_foldl_appendAll v.chains
    (fun c => increasing_compacted (ho.increasing c.1) lsn)
    (fun c n hn => ho.positive c.1 n (mem_compacted hn))
    (fun c hc => by rw [hc, ho.named, compacted_nil])]
  cases hc : v.chains.find? k with
  | none => simp [mergedChain, hc, compacted_nil, relink]
  | some chain => rfl

theorem lsns_compactBelow (ho : Ordered v) (hpos : lsn ≠ 0) (k : Key) :
    ((v.compactBelow lsn).mergedChain k).map (·.lsn) =
      (compacted (v.mergedChain k) lsn).map (·.lsn) := by
  rw [mergedChain_compactBelow ho hpos, lsns_relink]

theorem Ordered.compactBelow (ho : Ordered v) (lsn : Nat) : Ordered (v.compactBelow lsn) := by
  by_cases h0 : lsn = 0
  · rw [VersionChainStore.compactBelow, if_pos h0]
    exact ho
  have hlsns := lsns_compactBelow ho h0
  refine ⟨fun k => ?_, fun k n hn => ?_, ?_⟩
  · have hmap : ((v.compactBelow lsn).mergedChain k |>.map (·.lsn)).Pairwise (· < ·) := by
      rw [hlsns]
      exact List.pairwise_map.2 (increasing_compacted (ho.increasing k) lsn)
    exact List.pairwise_map.1 hmap
  · obtain ⟨m, hm, he⟩ := mem_compactBelow hn
    exact he ▸ ho.positive k m hm
  · rw [mergedChain_compactBelow ho h0, ho.named, compacted_nil, relink]

theorem Ordered.appendRecords (ho : Ordered v) (rs : List DataRecord) :
    Ordered (v.appendRecords rs) := by
  induction rs generalizing v with
  | nil => exact ho
  | cons r rs ih =>
    rw [VersionChainStore.appendRecords]
    cases ha : v.append r.key r.lsn (v.head r.key) with
    | mk v' st =>
      cases st with
      | error e => exact ho.append ha
      | ok u => exact ih (ho.append ha)

/-- **Chains rebuilt from the data file** grow. -/
theorem ordered_rebuildFromDataFile (d : DataFile) : Ordered (rebuildFromDataFile d) :=
  ordered_empty.appendRecords _

end VersionChainStore

/-! ## Retention -/

theorem Retains.of_lsns {appended : List Nat} {bound : Nat} {chain chain' : List VersionNode}
    (hr : Retains appended bound chain) (h : chain'.map (·.lsn) = chain.map (·.lsn)) :
    Retains appended bound chain' where
  mem n hn := by
    obtain ⟨m, hm, he⟩ := List.mem_map.1 (h ▸ List.mem_map_of_mem hn : n.lsn ∈ chain.map (·.lsn))
    exact he ▸ hr.mem m hm
  kept lsn hlsn := by
    obtain ⟨m, hm, hle⟩ := hr.kept lsn hlsn
    obtain ⟨n, hn, he⟩ := List.mem_map.1 (h ▸ List.mem_map_of_mem hm : m.lsn ∈ chain'.map (·.lsn))
    exact ⟨n, hn, he ▸ hle⟩

/-- **Compaction retains** what lies above its bound, and the newest version up to it. -/
theorem Retains.compacted {appended : List Nat} {bound : Nat} {chain : List VersionNode}
    (hr : Retains appended bound chain) (hpos : ∀ n ∈ chain, 0 < n.lsn) (lsn : Nat) :
    Retains appended (max bound lsn) (VersionChainStore.compacted chain lsn) where
  mem n hn := hr.mem n (mem_compacted hn)
  kept a ha := by
    obtain ⟨n, hn, hge, hle⟩ := hr.kept a ha
    rcases Nat.lt_or_ge n.lsn lsn with hlt | hge'
    · obtain ⟨m, hm, hnm, hml⟩ := exists_compacted_floor hn (hpos n hn) hlt
      exact ⟨m, hm, Nat.le_trans hge hnm, by omega⟩
    · exact ⟨n, mem_compacted_of_ge hn hge', hge, by omega⟩

end EBTree.Engine
