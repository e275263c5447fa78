import EBTree.Engine.ChainFile
import EBTree.Engine.Proof.ChainSpill

/-!
# Chains read back

`Divided v`: with a pager, all but the last `kVcsInlineMax` nodes of every chain are in it. Appends
and compactions keep that, so the index file, which holds whole chains, and the metadata file, which
holds the spilled part, fit together (`SpillingChainStore.Sized` bounds what is stored by the widths of
the fields).

* `savePages_ok`: the pages are written, whatever the page file holds.
* `loadEntries_ok`, `LoadedPager.loadEntries_ok`: what reading an index and a metadata file leaves.
* `run_sidecar_round_trip`: in every run whose chains have fewer than `2 ^ 32` nodes a store that is
  saved and read back has the same chains, heads and floors.
* `long_chain_lost`: a chain of `2 ^ 32` nodes is read back empty.
-/

set_option autoImplicit false

namespace EBTree.Engine

open Lib BTree VersionChainStore

/-! ## Reading what was written -/

theorem takeBytes_append {n : Nat} {bs : Bytes} (rest : Bytes) (h : bs.length = n) :
    takeBytes n (bs ++ rest) = some (bs, rest) := by
  subst h
  simp [takeBytes]

/-- The fields fit their widths. -/
structure VersionNode.InRange (n : VersionNode) : Prop where
  lsn_lt : n.lsn < 2 ^ 64
  prevLsn_lt : n.prevLsn < 2 ^ 64

@[simp] theorem VersionNode.length_encode (n : VersionNode) :
    n.encode.length = kVcsNodeRecordSize := by
  simp [encode, kVcsNodeRecordSize]

theorem VersionNode.decode_encode {n : VersionNode} (h : n.InRange) : decode n.encode = n := by
  have h1 : fieldAt n.encode 0 8 = le 8 n.lsn := fieldAt_here (length_le 8 _)
  have h2 : fieldAt n.encode 8 8 = le 8 n.prevLsn :=
    fieldAt_of_append (le 8 n.lsn) [] (by simp [encode]) (by simp) (by simp)
  rw [decode, h1, h2, leNat_le, leNat_le, Nat.mod_eq_of_lt (show n.lsn < 256 ^ 8 from h.lsn_lt),
    Nat.mod_eq_of_lt (show n.prevLsn < 256 ^ 8 from h.prevLsn_lt)]

theorem VcsKeyOverflowMeta.length_encode (m : VcsKeyOverflowMeta) : m.encode.length = 24 := by
  simp [encode]

theorem readNodes_encode {nodes : List VersionNode} (h : ∀ n ∈ nodes, n.InRange) (rest : Bytes) :
    readNodes nodes.length (nodes.flatMap VersionNode.encode ++ rest) = some (nodes, rest) := by
  induction nodes with
  | nil => rfl
  | cons n nodes ih =>
    have hn := VersionNode.decode_encode (h n List.mem_cons_self)
    simp only [List.flatMap_cons, List.length_cons, List.append_assoc, readNodes,
      takeBytes_append _ n.length_encode, ih fun m hm => h m (List.mem_cons_of_mem _ hm),
      Option.map_some, hn]

theorem leNat_le_of_lt {w n : Nat} (h : n < 256 ^ w) : leNat (le w n) = n := by
  rw [leNat_le, Nat.mod_eq_of_lt h]

theorem encodeKey_eq {key : Key} (h : key.length < 2 ^ 16) : encodeKey key = le 2 key.length ++ key := by
  rw [encodeKey, Nat.mod_eq_of_lt h, List.take_length]

/-- An entry of the index file reads back. -/
theorem readIndexEntry_encode {key : Key} {nodes : List VersionNode} (hk : key.length < 2 ^ 16)
    (hl : nodes.length < 2 ^ 32) (hn : ∀ n ∈ nodes, n.InRange) (rest : Bytes) :
    readIndexEntry ((encodeKey key ++ encodeNodes nodes) ++ rest) = .ok ((key, nodes), rest) := by
  have hlen : leNat (le 2 key.length) = key.length := leNat_le_of_lt hk
  have hcount : leNat (le 4 nodes.length) = nodes.length := leNat_le_of_lt hl
  simp only [encodeKey_eq hk, encodeNodes, List.append_assoc, readIndexEntry,
    takeBytes_append _ (length_le _ _), hlen, takeBytes_append _ rfl, hcount,
    readNodes_encode hn rest]

/-- An entry of the metadata file reads back. -/
theorem readMetaEntry_encode {key : Key} {m : VcsKeyOverflowMeta} {nodes : List VersionNode}
    (hk : key.length < 2 ^ 16) (hl : nodes.length < 2 ^ 32) (hn : ∀ n ∈ nodes, n.InRange)
    (rest : Bytes) :
    readMetaEntry ((encodeKey key ++ (m.encode ++ encodeNodes nodes)) ++ rest) =
      .ok ((key, VcsKeyOverflowMeta.decode m.encode, nodes), rest) := by
  have hlen : leNat (le 2 key.length) = key.length := leNat_le_of_lt hk
  have hcount : leNat (le 4 nodes.length) = nodes.length := leNat_le_of_lt hl
  simp only [encodeKey_eq hk, encodeNodes, List.append_assoc, readMetaEntry,
    takeBytes_append _ (length_le _ _), hlen, takeBytes_append _ rfl,
    takeBytes_append _ m.length_encode, hcount, readNodes_encode hn rest]

/-! ## The pages -/

theorem length_overflowPage (nodes : List VersionNode) : (overflowPage nodes).length = kPageSize :=
  length_padTo _ _

/-- A page that was appended is in the file, which only grows. -/
theorem length_appendPages (pages : PageFile) {page : Bytes} (hp : page.length = kPageSize) :
    (pages.appendPages [page]).2 + kPageSize ≤ (pages.appendPages [page]).1.file.length ∧
      pages.file.length ≤ (pages.appendPages [page]).1.file.length := by
  simp only [PageFile.appendPages, List.isEmpty_cons, Bool.false_eq_true, if_false,
    List.flatten_cons, List.flatten_nil, List.append_nil, length_overwrite, hp]
  omega

/-- A page that is in the file can be linked. -/
theorem linkPage_ok (pages : PageFile) {tail : Nat} (offset : Nat)
    (ht : tail + kPageSize ≤ pages.file.length) :
    ∃ pages', linkPage pages tail offset = .ok pages' ∧
      pages.file.length ≤ pages'.file.length := by
  have hr : pages.readPage tail = .ok ((pages.file.drop tail).take kPageSize) :=
    PageFile.readPage_ok.2 (if_pos ht)
  refine ⟨_, by rw [linkPage, hr], ?_⟩
  simp only [length_overwrite]
  exact Nat.le_max_left _ _

/-- **The pages are written.** -/
theorem savePages_ok (fuel : Nat) (pages : PageFile) (head : Nat) {tail : Nat} (nodes : List VersionNode)
    (ht : tail = 0 ∨ tail + kPageSize ≤ pages.file.length) :
    ∃ r, savePages pages head tail fuel nodes = .ok r := by
  induction fuel generalizing pages head tail nodes with
  | zero => exact ⟨_, rfl⟩
  | succ fuel ih =>
    by_cases hnil : nodes = []
    · exact ⟨_, by rw [savePages, if_pos hnil]⟩
    have hne : nodes.take kVcsNodesPerPage ≠ [] := by
      rw [Ne, List.take_eq_nil_iff]
      rintro (h | h)
      · exact absurd h (by decide)
      · exact hnil h
    obtain ⟨hpage, hgrows⟩ := length_appendPages pages
      (length_overflowPage (nodes.take kVcsNodesPerPage))
    rw [savePages, if_neg hnil, writeOverflowPage, if_neg hne]
    simp only
    by_cases h0 : tail = 0
    · rw [if_pos h0]
      exact ih _ _ _ (.inr hpage)
    · obtain ⟨pages', hl, hle⟩ := linkPage_ok (pages.appendPages [overflowPage
        (nodes.take kVcsNodesPerPage)]).1 (pages.appendPages [overflowPage
        (nodes.take kVcsNodesPerPage)]).2 (Nat.le_trans (ht.resolve_left h0) hgrows)
      rw [if_neg h0, hl]
      exact ih _ _ _ (.inr (Nat.le_trans hpage hle))

namespace VcsPager

variable {p : VcsPager} {key : Key}

/-- `overflow_` has an entry for the keys with nodes. -/
theorem find?_overflow (p : VcsPager) (key : Key) :
    (p.overflow.find? key).isSome ↔ p.loadOverflow key ≠ [] := by
  rw [overflow, SortedMap.find?_mapValues, SortedMap.find?_filterValues, loadOverflow]
  cases p.overflowNodes.find? key with
  | none => simp
  | some nodes => by_cases h : nodes = [] <;> simp [h]

/-- `meta_out` gets an entry for each key with nodes. -/
theorem saveOverflow_ok (keys : List Key) (pages : PageFile)
    (metaOut : SortedMap Key VcsKeyOverflowMeta) :
    ∃ pages' metaOut', p.saveOverflow keys pages metaOut = .ok (pages', metaOut') ∧
      ∀ k, (metaOut'.find? k).isSome ↔
        (metaOut.find? k).isSome ∨ (k ∈ keys ∧ p.loadOverflow k ≠ []) := by
  induction keys generalizing pages metaOut with
  | nil => exact ⟨pages, metaOut, rfl, fun k => by simp⟩
  | cons key keys ih =>
    by_cases hnil : p.loadOverflow key = []
    · obtain ⟨pages', metaOut', he, hk⟩ := ih pages metaOut
      refine ⟨pages', metaOut', by rw [saveOverflow]; simp only [hnil, if_true]; exact he, fun k => ?_⟩
      rw [hk, List.mem_cons]
      by_cases hkk : k = key
      · subst hkk
        simp [hnil]
      · simp [hkk]
    · obtain ⟨⟨pages₁, head, tail⟩, hs⟩ := savePages_ok (p.loadOverflow key).length pages 0
        (p.loadOverflow key) (.inl rfl)
      obtain ⟨pages', metaOut', he, hk⟩ := ih pages₁
        (metaOut.insert key ⟨head, tail, (p.loadOverflow key).length % 2 ^ 32⟩)
      refine ⟨pages', metaOut', by rw [saveOverflow]; simp only [hnil, if_false, hs]; exact he,
        fun k => ?_⟩
      rw [hk, SortedMap.find?_insert, List.mem_cons]
      by_cases hkk : k = key
      · subst hkk
        simp [hnil]
      · simp [hkk]

end VcsPager

/-! ## Reading the metadata file -/

namespace LoadedPager

/-- **What reading entries of a metadata file leaves**: the nodes of the keys that have some. -/
theorem loadEntries_ok {p : VcsPager} (metaOut : SortedMap Key VcsKeyOverflowMeta) (keys : List Key)
    (hkey : ∀ k ∈ keys, k.length < 2 ^ 16) (hlen : ∀ k, (p.loadOverflow k).length < 2 ^ 32)
    (hin : ∀ k, ∀ n ∈ p.loadOverflow k, n.InRange) (q : LoadedPager) :
    ∃ q', q.loadEntries keys.length (keys.flatMap (p.encodeMeta metaOut)) = .ok q' ∧
      (∀ k, q'.overflowNodes.find? k = if k ∈ keys ∧ p.loadOverflow k ≠ [] then
        some (p.loadOverflow k) else q.overflowNodes.find? k) ∧
      ∀ k, k ∉ keys → q'.overflow.find? k = q.overflow.find? k := by
  induction keys generalizing q with
  | nil => exact ⟨q, rfl, fun k => by simp, fun k _ => rfl⟩
  | cons key keys ih =>
    obtain ⟨q', he, hnodes, hover⟩ := ih (fun k hk => hkey k (List.mem_cons_of_mem _ hk))
      { q with
        overflow := q.overflow.insert key
          (VcsKeyOverflowMeta.decode ((metaOut.find? key).getD ⟨0, 0, 0⟩).encode)
        overflowNodes :=
          if p.loadOverflow key = [] then q.overflowNodes
          else q.overflowNodes.insert key (p.loadOverflow key) }
    refine ⟨q', ?_, fun k => ?_, fun k hk => ?_⟩
    · rw [List.flatMap_cons, List.length_cons, loadEntries, VcsPager.encodeMeta,
        readMetaEntry_encode (hkey key List.mem_cons_self) (hlen key) (hin key)]
      exact he
    · rw [hnodes]
      simp only [List.mem_cons]
      by_cases hkk : k = key
      · subst hkk
        by_cases hnil : p.loadOverflow k = []
        · simp [hnil]
        · simp [hnil, SortedMap.find?_insert]
      · by_cases hnil : p.loadOverflow key = []
        · simp [hkk, hnil]
        · simp [hkk, hnil, SortedMap.find?_insert]
    · rw [List.mem_cons, not_or] at hk
      rw [hover k hk.2, SortedMap.find?_insert, if_neg hk.1]

/-- **A metadata file reads back**: every key finds its nodes. -/
theorem loadMeta_saveMeta {p : VcsPager} (hkey : ∀ k, p.loadOverflow k ≠ [] → k.length < 2 ^ 16)
    (hlen : ∀ k, (p.loadOverflow k).length < 2 ^ 32)
    (hin : ∀ k, ∀ n ∈ p.loadOverflow k, n.InRange) {keys : List Key} (hkeys : keys.length < 2 ^ 64)
    (hsub : ∀ k, p.loadOverflow k ≠ [] → k ∈ keys) (pages : PageFile)
    (nodesOrder metaOrder : WalkOrder) :
    ∃ pages' bs, p.saveMeta pages nodesOrder metaOrder = .ok (pages', bs) ∧
      ∀ pages, ∃ q, loadMeta pages bs = .ok q ∧
        ∀ k, q.loadOverflow k = some (.ok (p.loadOverflow k)) := by
  obtain ⟨pages', metaOut, hs, hmeta⟩ := p.saveOverflow_ok
    (nodesOrder.order (p.overflowNodes.entries.map (·.1))) pages p.overflow
  have hmem : ∀ k, k ∈ metaOut.entries.map (·.1) ↔ p.loadOverflow k ≠ [] := by
    intro k
    have hsome : k ∈ metaOut.entries.map (·.1) ↔ (metaOut.find? k).isSome := by
      rw [List.mem_map, Option.isSome_iff_exists]
      constructor
      · rintro ⟨⟨k', m⟩, he, rfl⟩
        exact ⟨m, SortedMap.mem_entries_iff.1 he⟩
      · rintro ⟨m, hm⟩
        exact ⟨(k, m), SortedMap.mem_entries_iff.2 hm, rfl⟩
    rw [hsome, hmeta, p.find?_overflow]
    exact or_iff_left_of_imp fun h => h.2
  have hcount : metaOut.entries.length < 2 ^ 64 := by
    have hnodup : (metaOut.entries.map (·.1)).Nodup :=
      (List.pairwise_map.2 metaOut.sorted).imp fun h => ne_of_lt h
    have hle := (List.subperm_of_subset hnodup fun k hk => hsub k ((hmem k).1 hk)).length_le
    rw [List.length_map] at hle
    omega
  refine ⟨pages', _, by rw [VcsPager.saveMeta, hs], fun pages => ?_⟩
  have hperm := metaOrder.perm (metaOut.entries.map (·.1))
  obtain ⟨q, hq, hnodes, hover⟩ := loadEntries_ok (p := p) metaOut
    (metaOrder.order (metaOut.entries.map (·.1)))
    (fun k hk => hkey k ((hmem k).1 (hperm.mem_iff.1 hk))) hlen hin
    ⟨SortedMap.empty, SortedMap.empty, pages⟩
  have hmagic : leNat (fieldAt (le 8 kVcsMetaMagic ++ le 8 metaOut.entries.length) 0 8) =
      kVcsMetaMagic := by
    rw [fieldAt_here (length_le 8 _)]
    exact leNat_le_of_lt (by decide)
  have hnum : leNat (fieldAt (le 8 kVcsMetaMagic ++ le 8 metaOut.entries.length) 8 8) =
      metaOut.entries.length := by
    have hfield : fieldAt (le 8 kVcsMetaMagic ++ le 8 metaOut.entries.length) 8 8 =
        le 8 metaOut.entries.length :=
      fieldAt_of_append (le 8 kVcsMetaMagic) [] (by simp) (by simp) (by simp)
    rw [hfield]
    exact leNat_le_of_lt hcount
  refine ⟨q, ?_, fun k => ?_⟩
  · have hnot : ¬ kVcsMetaMagic ≠ kVcsMetaMagic := fun h => h rfl
    have hlenkeys : (metaOrder.order (metaOut.entries.map (·.1))).length = metaOut.entries.length := by
      rw [hperm.length_eq, List.length_map]
    rw [loadMeta, ← List.append_assoc, takeBytes_append _ (by simp)]
    simp only [hmagic, hnum, hnot, if_false]
    rw [← hlenkeys]
    exact hq
  · rw [loadOverflow, hnodes]
    by_cases hnil : p.loadOverflow k = []
    · have hno : k ∉ metaOrder.order (metaOut.entries.map (·.1)) := fun hk =>
        (hmem k).1 (hperm.mem_iff.1 hk) hnil
      rw [if_neg fun h => h.2 hnil, hover k hno, hnil]
      rfl
    · rw [if_pos ⟨hperm.mem_iff.2 ((hmem k).2 hnil), hnil⟩]

end LoadedPager

/-! ## Reading the index file -/

namespace SpillingChainStore

/-- The nodes a store keeps inline when it spills. -/
def inlinePart (spills : Prop) [Decidable spills] (chain : List VersionNode) : List VersionNode :=
  if spills then chain.drop (chain.length - kVcsInlineMax) else chain

/-- The nodes that go to the pager. -/
def spilledPart (spills : Prop) [Decidable spills] (chain : List VersionNode) : List VersionNode :=
  if spills then chain.take (chain.length - kVcsInlineMax) else []

theorem spilledPart_append_inlinePart (spills : Prop) [Decidable spills] (chain : List VersionNode) :
    spilledPart spills chain ++ inlinePart spills chain = chain := by
  unfold spilledPart inlinePart
  split
  · exact List.take_append_drop _ _
  · rfl

theorem parts_of_le (spills : Prop) [Decidable spills] {chain : List VersionNode}
    (h : chain.length ≤ kVcsInlineMax) : inlinePart spills chain = chain ∧ spilledPart spills chain = [] := by
  unfold inlinePart spilledPart
  rw [Nat.sub_eq_zero_of_le h, List.drop_zero, List.take_zero, ite_self, ite_self]
  exact ⟨rfl, rfl⟩

/-- The pager takes nodes whose LSNs grow. -/
theorem appendOverflowAll_ok {p : VcsPager} {key : Key} (hkey : key ≠ []) (nodes : List VersionNode)
    (hinc : Increasing (p.loadOverflow key ++ nodes)) :
    ∃ p', appendOverflowAll p key nodes = .ok p' ∧
      p'.loadOverflow key = p.loadOverflow key ++ nodes ∧
      ∀ k, k ≠ key → p'.loadOverflow k = p.loadOverflow k := by
  induction nodes generalizing p with
  | nil => exact ⟨p, rfl, (List.append_nil _).symm, fun _ _ => rfl⟩
  | cons node nodes ih =>
    obtain ⟨p₁, happ, hmoved, hinc', hother⟩ := p.appendOverflow_next hkey hinc
    obtain ⟨p', he, hall, hrest⟩ := ih hinc'
    refine ⟨p', ?_, hall.trans hmoved, fun k hk => (hrest k hk).trans (hother k hk)⟩
    rw [appendOverflowAll, happ]
    exact he

variable {v : SpillingChainStore} {w : VersionChainStore} {key : Key}

/-- **One entry** of an index file is divided as the store divides its chains. -/
theorem takeIn_ok (magic : Nat) {nodes : List VersionNode} (hkey : nodes ≠ [] → key ≠ [])
    (hinc : Increasing nodes) (hempty : v.overflow key = []) :
    ∃ v', v.takeIn magic key nodes = .ok v' ∧ v'.pager.isSome = v.pager.isSome ∧
      (v'.inlineNodes key = inlinePart (magic = kVidxMagicV2Flag ∧ v.pager.isSome) nodes ∧
        v'.overflow key = spilledPart (magic = kVidxMagicV2Flag ∧ v.pager.isSome) nodes) ∧
      ∀ k, k ≠ key → v'.inlineNodes k = v.inlineNodes k ∧ v'.overflow k = v.overflow k := by
  obtain ⟨chains, pager⟩ := v
  cases pager with
  | none =>
    refine ⟨⟨chains.insert key nodes, none⟩, rfl, rfl, ?_, fun k hk => ⟨?_, rfl⟩⟩
    · rw [inlinePart, spilledPart, if_neg (by simp), if_neg (by simp), inlineNodes_insert, if_pos rfl]
      exact ⟨rfl, rfl⟩
    · rw [inlineNodes_insert, if_neg hk]
  | some p =>
    rw [takeIn]
    by_cases hc : magic = kVidxMagicV2Flag ∧ kVcsInlineMax < nodes.length
    · have hne : nodes ≠ [] := by
        rintro rfl
        exact absurd hc.2 (Nat.not_lt_zero _)
      have hstart : p.loadOverflow key = [] := hempty
      obtain ⟨p', he, hall, hrest⟩ := appendOverflowAll_ok (p := p) (hkey hne)
        (nodes.take (nodes.length - kVcsInlineMax)) (by
          rw [hstart, List.nil_append]
          exact hinc.sublist (List.take_sublist _ _))
      refine ⟨⟨chains.insert key (nodes.drop (nodes.length - kVcsInlineMax)), some p'⟩, ?_, rfl, ?_,
        fun k hk => ⟨?_, hrest k hk⟩⟩
      · simp only [if_pos hc, he]
      · rw [inlinePart, spilledPart, if_pos ⟨hc.1, rfl⟩, if_pos ⟨hc.1, rfl⟩, inlineNodes_insert,
          if_pos rfl]
        refine ⟨rfl, ?_⟩
        rw [hstart, List.nil_append] at hall
        exact hall
      · rw [inlineNodes_insert, if_neg hk]
        rfl
    · refine ⟨⟨chains.insert key nodes, some p⟩, ?_, rfl, ?_, fun k hk => ⟨?_, rfl⟩⟩
      · simp only [if_neg hc]
      · by_cases hm : magic = kVidxMagicV2Flag
        · obtain ⟨hi, hs⟩ := parts_of_le (magic = kVidxMagicV2Flag ∧
            (⟨chains, some p⟩ : SpillingChainStore).pager.isSome)
            (Nat.not_lt.1 fun h => hc ⟨hm, h⟩ : nodes.length ≤ kVcsInlineMax)
          rw [hi, hs, inlineNodes_insert, if_pos rfl]
          exact ⟨rfl, hempty⟩
        · rw [inlinePart, spilledPart, if_neg fun h => hm h.1, if_neg fun h => hm h.1,
            inlineNodes_insert, if_pos rfl]
          exact ⟨rfl, hempty⟩
      · rw [inlineNodes_insert, if_neg hk]

/-- **What reading entries of an index file leaves**: each chain, divided. -/
theorem loadEntries_ok (magic : Nat) (chain : Key → List VersionNode) (keys : List Key) (hnodup : keys.Nodup)
    (hlen : ∀ k ∈ keys, k.length < 2 ^ 16) (hfew : ∀ k, (chain k).length < 2 ^ 32)
    (hin : ∀ k, ∀ n ∈ chain k, n.InRange) (hinc : ∀ k, Increasing (chain k)) (hnamed : chain [] = [])
    (v : SpillingChainStore) (hempty : ∀ k ∈ keys, v.overflow k = []) :
    ∃ v', v.loadEntries magic keys.length
        (keys.flatMap fun k => encodeKey k ++ encodeNodes (chain k)) = .ok v' ∧
      v'.pager.isSome = v.pager.isSome ∧
      ∀ k, v'.inlineNodes k = (if k ∈ keys then
            inlinePart (magic = kVidxMagicV2Flag ∧ v.pager.isSome) (chain k) else v.inlineNodes k) ∧
        v'.overflow k = if k ∈ keys then
            spilledPart (magic = kVidxMagicV2Flag ∧ v.pager.isSome) (chain k) else v.overflow k := by
  induction keys generalizing v with
  | nil => exact ⟨v, rfl, rfl, fun k => ⟨by simp, by simp⟩⟩
  | cons key keys ih =>
    obtain ⟨hnot, hnodup⟩ := List.nodup_cons.1 hnodup
    have hkey : chain key ≠ [] → key ≠ [] := by
      rintro hne rfl
      exact hne hnamed
    obtain ⟨v₁, ht, hp₁, ⟨hi₁, ho₁⟩, hrest⟩ := takeIn_ok magic hkey (hinc key)
      (hempty key List.mem_cons_self)
    obtain ⟨v', he, hp', hall⟩ := ih hnodup (fun k hk => hlen k (List.mem_cons_of_mem _ hk)) v₁
      fun k hk => by
        have hne : k ≠ key := by
          rintro rfl
          exact hnot hk
        rw [(hrest k hne).2]
        exact hempty k (List.mem_cons_of_mem _ hk)
    refine ⟨v', ?_, hp'.trans hp₁, fun k => ?_⟩
    · rw [List.flatMap_cons, List.length_cons, loadEntries,
        readIndexEntry_encode (hlen key List.mem_cons_self) (hfew key) (hin key)]
      simp only [ht]
      exact he
    · obtain ⟨hi, ho⟩ := hall k
      rw [hi, ho]
      simp only [hp₁, List.mem_cons]
      by_cases hkk : k = key
      · subst hkk
        simp only [hnot, if_false, true_or, if_true, hi₁, ho₁, and_self]
      · simp only [hkk, false_or, (hrest k hkk).1, (hrest k hkk).2, and_self]

end SpillingChainStore

/-! ## How chains are divided -/

namespace SpillingChainStore

theorem length_spill {p : VcsPager} {key : Key} (hkey : key ≠ []) {nodes : List VersionNode}
    (hinc : Increasing (p.loadOverflow key ++ nodes)) :
    (spill p key nodes).2.length = min nodes.length kVcsInlineMax := by
  induction nodes generalizing p with
  | nil => rfl
  | cons node nodes ih =>
    rw [spill]
    split
    · rename_i hlen
      obtain ⟨p', happ, -, hinc', -⟩ := p.appendOverflow_next hkey hinc
      rw [happ]
      simp only
      rw [ih hinc']
      rw [List.length_cons] at hlen ⊢
      omega
    · rename_i hlen
      rw [Nat.min_eq_left (Nat.not_lt.1 hlen)]

variable {v v' : SpillingChainStore} {w : VersionChainStore} {key : Key} {lsn prevLsn : Nat}

/-- With a pager, all nodes of a chain but the last `kVcsInlineMax` are in it. -/
def Divided (v : SpillingChainStore) : Prop :=
  v.pager.isSome → ∀ k, (v.overflow k).length = (v.mergedChain k).length - kVcsInlineMax

theorem length_mergedChain (v : SpillingChainStore) (k : Key) :
    (v.mergedChain k).length = (v.overflow k).length + (v.inlineNodes k).length :=
  List.length_append

theorem Divided.of_same (hd : Divided v) (hp : v'.pager = v.pager)
    (hi : ∀ k, v'.inlineNodes k = v.inlineNodes k) : Divided v' := by
  intro hs k
  have ho : v'.overflow k = v.overflow k := by rw [overflow, overflow, hp]
  rw [mergedChain, ho, hi]
  exact hd (hp ▸ hs) k

/-- `MaybeSpill` divides a chain that has too many nodes inline. -/
theorem divided_maybeSpill (hkey : key ≠ []) (hinc : Increasing (v.mergedChain key))
    (hrest : v.pager.isSome → ∀ k, k ≠ key →
      (v.overflow k).length = (v.mergedChain k).length - kVcsInlineMax)
    (hat : v.pager.isSome → (v.overflow key).length ≤ (v.mergedChain key).length - kVcsInlineMax) :
    Divided (v.maybeSpill key) := by
  obtain ⟨chains, pager⟩ := v
  cases pager with
  | none => exact fun hp => absurd hp Bool.false_ne_true
  | some p =>
    intro _ k
    obtain ⟨hsame, -, hother⟩ := maybeSpill_spec ⟨chains, some p⟩ hkey hinc
    have hlen := length_mergedChain (maybeSpill ⟨chains, some p⟩ key) k
    have hu := length_mergedChain ⟨chains, some p⟩ k
    rw [hsame] at hlen ⊢
    by_cases hk : k = key
    · subst hk
      have hin : (maybeSpill ⟨chains, some p⟩ k).inlineNodes k =
          (spill p k (inlineNodes ⟨chains, some p⟩ k)).2 :=
        (inlineNodes_insert _ _ _ _ _).trans (if_pos rfl)
      rw [hin, length_spill hkey hinc] at hlen
      have hle := hat rfl
      omega
    · rw [hother k hk] at hlen
      have heq := hrest rfl k hk
      omega

/-- **Appends keep the division.** -/
theorem Divided.append (hd : Divided v) (hs : Spilled v w) (ho : Ordered w) (key : Key)
    (lsn prevLsn : Nat) : Divided (v.append key lsn prevLsn).1 := by
  obtain ⟨hst, -⟩ := hs.append ho key lsn prevLsn
  have ho' := ho.append (Prod.eta (w.append key lsn prevLsn)).symm
  obtain ⟨hp, hi⟩ | ⟨hkey, he⟩ := v.append_cases key lsn prevLsn
  · exact hd.of_same hp hi
  · have hok : (w.append key lsn prevLsn).2 = .ok () := by rw [← hst, he]
    have hw := mergedChain_append_ok (Prod.ext rfl hok : w.append key lsn prevLsn =
      ((w.append key lsn prevLsn).1, .ok ())) key
    rw [if_pos rfl] at hw
    have hinl : ∀ k, (⟨(v.chains.insert key (v.inlineNodes key)).insert key
        (v.inlineNodes key ++ [⟨lsn, prevLsn⟩]), v.pager⟩ : SpillingChainStore).inlineNodes k =
        if k = key then v.inlineNodes key ++ [⟨lsn, prevLsn⟩] else v.inlineNodes k := by
      intro k
      rw [inlineNodes_insert, inlineNodes_entry]
    have hmerged : (⟨(v.chains.insert key (v.inlineNodes key)).insert key
        (v.inlineNodes key ++ [⟨lsn, prevLsn⟩]), v.pager⟩ : SpillingChainStore).mergedChain key =
        v.mergedChain key ++ [⟨lsn, prevLsn⟩] := by
      rw [mergedChain, hinl, if_pos rfl, ← List.append_assoc]
      rfl
    rw [he]
    refine divided_maybeSpill hkey ?_ (fun hp k hk => ?_) fun hp => ?_
    · rw [hmerged, hs.merged, ← hw]
      exact ho'.increasing key
    · have heq := hd hp k
      rw [mergedChain, hinl, if_neg hk]
      exact heq
    · have heq := hd hp key
      rw [hmerged, List.length_append, List.length_singleton]
      change (v.overflow key).length ≤ _
      omega

theorem Divided.appendAll (hd : Divided v) (hs : Spilled v w) (ho : Ordered w) (key : Key)
    (prev : Nat) (ns : List VersionNode) : Divided (v.appendAll key prev ns) := by
  induction ns generalizing v w prev with
  | nil => exact hd
  | cons n ns ih =>
    obtain ⟨-, hs'⟩ := hs.append ho key n.lsn prev
    have ho' := ho.append (Prod.eta (w.append key n.lsn prev)).symm
    have hd' := hd.append hs ho key n.lsn prev
    rw [SpillingChainStore.appendAll]
    cases hv : v.append key n.lsn prev with
    | mk v' st =>
      rw [hv] at hs' hd'
      cases st with
      | error e => exact hd'
      | ok u => exact ih hd' hs' ho' n.lsn

theorem Divided.foldl {V : Type} (l : List (Key × V)) (g : Key × V → List VersionNode)
    (hd : Divided v) (hs : Spilled v w) (ho : Ordered w) :
    Divided (l.foldl (fun v c => v.appendAll c.1 0 (g c)) v) := by
  induction l generalizing v w with
  | nil => exact hd
  | cons c l ih =>
    obtain ⟨hs', ho'⟩ := hs.appendAll ho c.1 0 (g c)
    exact ih (hd.appendAll hs ho c.1 0 (g c)) hs' ho'

/-- **Compactions keep the division.** -/
theorem Divided.compactBelow (hd : Divided v) (lsn : Nat) : Divided (v.compactBelow lsn) := by
  rw [SpillingChainStore.compactBelow]
  split
  · exact hd
  · have hclear : Divided v.clear := by
      obtain ⟨chains, pager⟩ := v
      cases pager <;> exact fun _ _ => rfl
    exact Divided.foldl _ _ hclear (Spilled.clear v) ordered_empty

theorem Run.divided {a : Asked} (hr : Run v a) : Divided v := by
  induction hr with
  | empty pager h =>
    cases pager with
    | none => exact fun _ _ => rfl
    | some p =>
      rw [h p rfl]
      exact fun _ _ => rfl
  | step op hr ih =>
    obtain ⟨w, hi⟩ := hr.inv
    cases op with
    | append key lsn prevLsn => exact ih.append hi.spilled hi.ordered key lsn prevLsn
    | compactBelow lsn => exact ih.compactBelow lsn

/-- The inline nodes of a chain that is divided. -/
theorem Divided.inlineNodes (hd : Divided v) (hp : v.pager.isSome) (k : Key) :
    v.inlineNodes k = (v.mergedChain k).drop ((v.mergedChain k).length - kVcsInlineMax) := by
  rw [← hd hp k, mergedChain, List.drop_left]

/-! ## The round trip -/

/-- What the machine's types hold: the number of chains, the length of a key and the numbers in the
nodes. -/
structure Sized (v : SpillingChainStore) : Prop where
  keys_lt : v.keys.length < 2 ^ 64
  key_le : ∀ k ∈ v.keys, k.length ≤ 65535
  inRange : ∀ k ∈ v.keys, ∀ n ∈ v.mergedChain k, n.InRange

/-- A pager that is given a metadata file finds the one that was written. -/
def Intact (v : SpillingChainStore) (saved : SavedChains) (files : Option PagerFiles) : Prop :=
  v.pager.isSome → ∀ f, files = some f → ∀ m, f.metaFile = some m → m.isSome ∧ m = saved.pagerMeta

/-- `LoadFromFile` of what `SaveToFile` wrote answers every lookup as the store did. -/
def RoundTrips (v : SpillingChainStore) (metaPath : Bool) (pages : PageFile) (ord : SaveOrder)
    (files : Option PagerFiles) : Prop :=
  ∃ saved, v.saveToFile metaPath pages ord = .ok saved ∧ (Intact v saved files →
    ∃ s, loadFromFile (some saved.index) files = .ok s ∧ ∀ key,
      s.mergedChain key = some (v.mergedChain key) ∧ s.head key = some (v.head key) ∧
        ∀ snapshotLsn, s.floor key snapshotLsn = some (v.floor key snapshotLsn))

theorem Spilled.mergedChain_eq_nil (hs : Spilled v w) {k : Key} (hk : k ∉ v.keys) :
    v.mergedChain k = [] := by
  have hnone : v.chains.find? k = none := by
    rw [SortedMap.find?_eq_none_iff]
    exact fun e he hek => hk (List.mem_map.2 ⟨e, he, hek⟩)
  have hinl : v.inlineNodes k = [] := by rw [SpillingChainStore.inlineNodes, hnone, Option.getD_none]
  rw [mergedChain, hs.inline k hinl, hinl, List.append_nil]

theorem nodup_keys (v : SpillingChainStore) : v.keys.Nodup :=
  (List.pairwise_map.2 v.chains.sorted).imp fun h => ne_of_lt h

theorem magic_eq_iff (v : SpillingChainStore) : v.magic = kVidxMagicV2Flag ↔ v.pager.isSome := by
  rw [magic]
  split
  · rename_i h
    exact ⟨fun _ => h, fun _ => rfl⟩
  · rename_i h
    exact ⟨fun he => absurd he (by decide), fun hp => absurd hp h⟩

/-- **An index file reads back**, up to the metadata of the pager. -/
theorem load_indexFile (hs : Spilled v w) (ho : Ordered w) (hz : Sized v)
    (hfew : ∀ k ∈ v.keys, (v.mergedChain k).length < 2 ^ 32) (ord : WalkOrder)
    (files : Option PagerFiles) :
    ∃ v' : SpillingChainStore,
      loadFromFile (some (v.indexFile ord)) files = v'.withMeta v.magic files ∧
      v'.pager.isSome = files.isSome ∧ ∀ k,
        v'.inlineNodes k = inlinePart (v.magic = kVidxMagicV2Flag ∧ files.isSome) (v.mergedChain k) ∧
        v'.overflow k = spilledPart (v.magic = kVidxMagicV2Flag ∧ files.isSome)
          (v.mergedChain k) := by
  have hperm := ord.perm v.keys
  have hall : ∀ k, (v.mergedChain k).length < 2 ^ 32 ∧ ∀ n ∈ v.mergedChain k, n.InRange := by
    intro k
    by_cases hk : k ∈ v.keys
    · exact ⟨hfew k hk, hz.inRange k hk⟩
    · rw [hs.mergedChain_eq_nil hk]
      exact ⟨Nat.two_pow_pos 32, fun n hn => absurd hn List.not_mem_nil⟩
  have hstart : ∀ k, (⟨SortedMap.empty, files.map fun _ => VcsPager.empty⟩ :
      SpillingChainStore).overflow k = [] := by
    intro k
    cases files <;> rfl
  obtain ⟨v', he, hp, hparts⟩ := loadEntries_ok v.magic v.mergedChain
    (ord.order v.keys) (hperm.nodup_iff.2 v.nodup_keys)
    (fun k hk => Nat.lt_succ_of_le (hz.key_le k (hperm.mem_iff.1 hk))) (fun k => (hall k).1)
    (fun k => (hall k).2) (fun k => hs.merged k ▸ ho.increasing k)
    ((hs.merged []).trans ho.named)
    ⟨SortedMap.empty, files.map fun _ => VcsPager.empty⟩ fun k _ => hstart k
  have hpager : (files.map fun _ => VcsPager.empty).isSome = files.isSome := Option.isSome_map
  simp only [hpager] at hp hparts
  refine ⟨v', ?_, hp, fun k => ?_⟩
  · have hmagic : leNat (le 8 v.magic) = v.magic := by
      refine leNat_le_of_lt ?_
      rw [magic]
      split <;> decide
    have hcount : leNat (le 8 v.keys.length) = (ord.order v.keys).length :=
      (leNat_le_of_lt hz.keys_lt).trans hperm.length_eq.symm
    have hknown : ¬ (v.magic ≠ kVidxMagicV1 ∧ v.magic ≠ kVidxMagicV2Flag) := by
      rw [magic]
      split <;> decide
    rw [loadFromFile, indexFile]
    simp only [takeBytes_append _ (length_le 8 _), hmagic, hknown, if_false, hcount]
    rw [show v.encodeEntry = fun k => encodeKey k ++ encodeNodes (v.mergedChain k) from rfl, he]
  · obtain ⟨hi, hov⟩ := hparts k
    rw [hi, hov]
    by_cases hk : k ∈ ord.order v.keys
    · rw [if_pos hk, if_pos hk]
      exact ⟨rfl, rfl⟩
    · have hnil := hs.mergedChain_eq_nil fun h => hk (hperm.mem_iff.2 h)
      obtain ⟨hi', hs'⟩ := parts_of_le (v.magic = kVidxMagicV2Flag ∧ files.isSome)
        (show ([] : List VersionNode).length ≤ kVcsInlineMax from Nat.zero_le _)
      rw [if_neg hk, if_neg hk, hnil, hi', hs']
      exact ⟨rfl, hstart k⟩

/-- **Saving succeeds**, and the metadata file holds what was spilled. -/
theorem saveToFile_ok (hs : Spilled v w) (hz : Sized v)
    (hfew : ∀ k ∈ v.keys, (v.mergedChain k).length < 2 ^ 32) (metaPath : Bool) (pages : PageFile)
    (ord : SaveOrder) :
    ∃ saved, v.saveToFile metaPath pages ord = .ok saved ∧ saved.index = v.indexFile ord.chains ∧
      ∀ bs, saved.pagerMeta = some bs → ∀ pages, ∃ q, LoadedPager.loadMeta pages bs = .ok q ∧
        ∀ k, q.loadOverflow k = some (.ok (v.overflow k)) := by
  rw [saveToFile]
  split
  · exact ⟨_, rfl, rfl, fun bs h => nomatch h⟩
  · rename_i p hp
    have hover : ∀ k, p.loadOverflow k = v.overflow k := by
      intro k
      rw [overflow, hp]
    have hmem : ∀ k, p.loadOverflow k ≠ [] → k ∈ v.keys := by
      intro k hne
      by_contra hk
      have hnil := hs.mergedChain_eq_nil hk
      rw [mergedChain, List.append_eq_nil_iff] at hnil
      exact hne ((hover k).trans hnil.1)
    have hpart : ∀ k, (p.loadOverflow k).length < 2 ^ 32 ∧ ∀ n ∈ p.loadOverflow k, n.InRange := by
      intro k
      by_cases hne : p.loadOverflow k = []
      · rw [hne]
        exact ⟨Nat.two_pow_pos 32, fun n hn => absurd hn List.not_mem_nil⟩
      · have hk := hmem k hne
        rw [hover k]
        refine ⟨?_, fun n hn => hz.inRange k hk n (List.mem_append_left _ hn)⟩
        have hlt := hfew k hk
        rw [length_mergedChain] at hlt
        omega
    split
    · obtain ⟨pages', bs, hsave, hload⟩ := LoadedPager.loadMeta_saveMeta (p := p)
        (fun k hne => Nat.lt_succ_of_le (hz.key_le k (hmem k hne))) (fun k => (hpart k).1)
        (fun k => (hpart k).2) hz.keys_lt hmem pages ord.nodes ord.metaOut
      refine ⟨⟨v.indexFile ord.chains, some bs, pages'⟩, by rw [hsave], rfl, fun bs' he pages => ?_⟩
      cases he
      obtain ⟨q, hq, hall⟩ := hload pages
      exact ⟨q, hq, fun k => (hall k).trans (by rw [hover k])⟩
    · exact ⟨_, rfl, rfl, fun bs h => nomatch h⟩

end SpillingChainStore

/-- The lookups of a store whose pager answers. -/
theorem LoadedChains.lookups {s : LoadedChains} {key : Key} {nodes chain : List VersionNode}
    (h : s.overflow key = some (.ok nodes)) (hc : nodes ++ s.inlineNodes key = chain) :
    s.mergedChain key = some chain ∧ s.head key = some (lastLsn chain) ∧
      ∀ snapshotLsn, s.floor key snapshotLsn = some (floorOf chain snapshotLsn) := by
  have hm : s.mergedChain key = some chain := by
    rw [LoadedChains.mergedChain, h, Option.map_some]
    exact congrArg some hc
  refine ⟨hm, ?_, fun snapshotLsn => by rw [LoadedChains.floor, hm, Option.map_some]⟩
  rw [LoadedChains.head, h, ← hc]
  by_cases hnil : s.inlineNodes key = []
  · rw [if_neg (not_not.2 hnil), hnil, List.append_nil, Option.map_some]
  · rw [if_pos hnil]
    unfold lastLsn
    rw [List.getLast?_append_of_ne_nil _ hnil]

/-- A pager that read nothing of its metadata has what was spilled on the way. -/
theorem LoadedPager.loadOverflow_spilled (p : VcsPager) (pages : PageFile) (key : Key) :
    (⟨p.overflowNodes, p.overflow, pages⟩ : LoadedPager).loadOverflow key =
      some (.ok (p.loadOverflow key)) := by
  rw [LoadedPager.loadOverflow]
  simp only
  cases hf : p.overflowNodes.find? key with
  | some nodes => rw [VcsPager.loadOverflow, hf, Option.getD_some]
  | none =>
    have hnil : p.loadOverflow key = [] := by rw [VcsPager.loadOverflow, hf, Option.getD_none]
    have hno : p.overflow.find? key = none := by
      rw [← Option.not_isSome_iff_eq_none, p.find?_overflow]
      exact fun h => h hnil
    rw [hno, hnil]

namespace SpillingChainStore

variable {v : SpillingChainStore}

/-- **A store that is saved and read back is the same**, in every run whose chains have fewer than
`2 ^ 32` nodes: with or without a pager, in any order of the keys. -/
theorem run_sidecar_round_trip {a : Asked} (hr : Run v a) (hz : Sized v)
    (hfew : ∀ k ∈ v.keys, (v.mergedChain k).length < 2 ^ 32) (metaPath : Bool) (pages : PageFile)
    (ord : SaveOrder) (files : Option PagerFiles) : RoundTrips v metaPath pages ord files := by
  obtain ⟨w, hi⟩ := hr.inv
  obtain ⟨saved, hsave, hindex, hmeta⟩ := saveToFile_ok hi.spilled hz hfew metaPath pages ord
  refine ⟨saved, hsave, fun hintact => ?_⟩
  obtain ⟨v', hload, hpager, hparts⟩ := load_indexFile hi.spilled hi.ordered hz hfew ord.chains files
  -- it is enough that every chain comes together again
  suffices h : ∃ s : LoadedChains, v'.withMeta v.magic files = .ok s ∧ ∀ key, ∃ nodes,
      s.overflow key = some (.ok nodes) ∧ nodes ++ s.inlineNodes key = v.mergedChain key by
    obtain ⟨s, hs, hall⟩ := h
    refine ⟨s, by rw [hindex, hload, hs], fun key => ?_⟩
    obtain ⟨nodes, ho, hc⟩ := hall key
    obtain ⟨hm, hh, hf⟩ := LoadedChains.lookups ho hc
    refine ⟨hm, ?_, hf⟩
    rw [hh, hi.spilled.head key, VersionChainStore.head, hi.spilled.merged key]
  cases files with
  | none =>
    have hnone : v'.pager = none := Option.isSome_eq_false_iff.1 hpager |> Option.isNone_iff_eq_none.1
    refine ⟨⟨v'.chains, none⟩, by rw [withMeta.eq_def, hnone], fun key => ⟨[], rfl, ?_⟩⟩
    obtain ⟨hinl, -⟩ := hparts key
    rw [inlinePart, if_neg (by simp)] at hinl
    exact hinl
  | some f =>
    obtain ⟨p', hp'⟩ := Option.isSome_iff_exists.1 hpager
    have hdivided : ∀ key, p'.loadOverflow key ++ v'.inlineNodes key = v.mergedChain key := by
      intro key
      obtain ⟨hinl, hov⟩ := hparts key
      have hp : v'.overflow key = p'.loadOverflow key := by rw [overflow, hp']
      rw [← hp, hinl, hov]
      exact spilledPart_append_inlinePart _ _
    rw [withMeta.eq_def, hp']
    simp only
    split
    · exact ⟨_, rfl, fun key => ⟨_, LoadedPager.loadOverflow_spilled p' f.pages key, hdivided key⟩⟩
    · rename_i hm
      obtain ⟨hv2, hm⟩ := Option.ite_none_right_eq_some.1 hm
      obtain ⟨hsome, -⟩ := hintact ((magic_eq_iff v).1 hv2) f rfl _ hm
      exact absurd hsome Bool.false_ne_true
    · rename_i bs hm
      obtain ⟨hv2, hm⟩ := Option.ite_none_right_eq_some.1 hm
      have hvp := (magic_eq_iff v).1 hv2
      obtain ⟨-, hbs⟩ := hintact hvp f rfl _ hm
      obtain ⟨q, hq, hall⟩ := hmeta bs hbs.symm f.pages
      refine ⟨⟨v'.chains, some q⟩, by rw [hq], fun key => ⟨v.overflow key, hall key, ?_⟩⟩
      obtain ⟨hinl, -⟩ := hparts key
      rw [inlinePart, if_pos ⟨hv2, rfl⟩, ← hr.divided.inlineNodes hvp key] at hinl
      change v.overflow key ++ v'.inlineNodes key = _
      rw [hinl]
      rfl

/-- Nine versions, one of which spills. -/
def oneSpilled : List Op := (List.range 9).map fun n => .append [1] (n + 1) n

theorem run_sidecar_round_trip_spilled :
    (runOps oneSpilled).1.overflow [1] = [⟨1, 0⟩] ∧
      RoundTrips (runOps oneSpilled).1 true PageFile.new
        ⟨WalkOrder.byKey, WalkOrder.byKey, WalkOrder.byKey⟩ (some ⟨none, PageFile.new⟩) := by
  have hkeys : (runOps oneSpilled).1.keys = [[1]] := by decide +kernel
  have hnodes : ∀ n ∈ (runOps oneSpilled).1.mergedChain [1],
      n.lsn < 2 ^ 64 ∧ n.prevLsn < 2 ^ 64 := by decide +kernel
  have hlen : ((runOps oneSpilled).1.mergedChain [1]).length < 2 ^ 32 := by decide +kernel
  refine ⟨by decide +kernel, run_sidecar_round_trip (run_runOps oneSpilled) ⟨?_, ?_, ?_⟩ ?_ _ _ _ _⟩
  · rw [hkeys]
    decide
  · rw [hkeys]
    decide
  · rw [hkeys]
    exact fun k hk n hn => ⟨(hnodes n (List.mem_singleton.1 hk ▸ hn)).1,
      (hnodes n (List.mem_singleton.1 hk ▸ hn)).2⟩
  · rw [hkeys]
    exact fun k hk => List.mem_singleton.1 hk ▸ hlen

/-! ## A chain that is too long -/

/-- `n` versions of one key, in a store without a pager. -/
def longChain (n : Nat) : SpillingChainStore :=
  ⟨SortedMap.empty.insert [1] ((List.range n).map fun i => ⟨i + 1, 0⟩), none⟩

theorem append_longChain (n : Nat) :
    ((longChain n).append [1] (n + 1) 0).1 = longChain (n + 1) := by
  have hinl : (longChain n).inlineNodes [1] = (List.range n).map fun i => ⟨i + 1, 0⟩ := by
    rw [inlineNodes, longChain, SortedMap.find?_insert, if_pos rfl, Option.getD_some]
  have hlast : lastLsn ((longChain n).inlineNodes [1]) ≤ n := by
    rw [hinl]
    cases n with
    | zero => exact Nat.le_refl _
    | succ n => rw [List.range_succ, List.map_append, List.map_singleton, lastLsn_append]
  have hover : (longChain n).overflow [1] = [] := rfl
  have hnot : ¬ ((longChain n).inlineNodes [1] ≠ [] ∧
      n + 1 ≤ lastLsn ((longChain n).inlineNodes [1])) := fun h => by omega
  obtain ⟨-, hi⟩ | ⟨-, he⟩ := (longChain n).append_cases [1] (n + 1) 0
  · -- the LSN is a new one, so it is not refused
    exfalso
    have hgrown : ((longChain n).append [1] (n + 1) 0).1.inlineNodes [1] =
        (longChain n).inlineNodes [1] ++ [⟨n + 1, 0⟩] := by
      rw [SpillingChainStore.append, if_neg (by decide), if_neg (by omega)]
      simp only
      rw [if_neg hnot, if_neg fun h => h.1 hover]
      exact (inlineNodes_insert _ none _ _ _).trans (if_pos rfl)
    rw [hi [1]] at hgrown
    exact absurd (congrArg List.length hgrown) (by rw [List.length_append]; simp)
  · rw [he, hinl]
    change (⟨_, none⟩ : SpillingChainStore) = longChain (n + 1)
    rw [longChain]
    congr 1
    refine SortedMap.ext_find? fun k => ?_
    simp only [SortedMap.find?_insert, SortedMap.find?_empty, List.range_succ, List.map_append,
      List.map_singleton]
    split <;> rfl

theorem run_longChain (n : Nat) : ∃ a, Run (longChain (n + 1)) a := by
  induction n with
  | zero =>
    have hr := (Run.empty none fun p hp => nomatch hp).step (.append [1] 1 0)
    exact ⟨_, hr⟩
  | succ n ih =>
    obtain ⟨a, hr⟩ := ih
    have hnext := hr.step (.append [1] (n + 2) 0)
    rw [SpillingChainStore.step, append_longChain (n + 1)] at hnext
    exact ⟨_, hnext⟩

theorem mergedChain_longChain (n : Nat) :
    (longChain n).mergedChain [1] = (List.range n).map fun i => ⟨i + 1, 0⟩ := by
  rw [mergedChain, inlineNodes, longChain, SortedMap.find?_insert, if_pos rfl, Option.getD_some]
  rfl

theorem sized_longChain {n : Nat} (hn : n < 2 ^ 64) : Sized (longChain n) := by
  have hkeys : (longChain n).keys = [[1]] := rfl
  refine ⟨by rw [hkeys]; decide, by rw [hkeys]; decide, ?_⟩
  rw [hkeys]
  intro k hk m hm
  rw [List.mem_singleton.1 hk, mergedChain_longChain] at hm
  obtain ⟨i, hi, rfl⟩ := List.mem_map.1 hm
  rw [List.mem_range] at hi
  exact ⟨by show i + 1 < 2 ^ 64; omega, Nat.two_pow_pos 64⟩

/-- A number of nodes that the index file's 32 bits hold as zero. -/
theorem not_roundTrips_longChain {n : Nat} (hpos : 0 < n) (hzero : n % 2 ^ 32 = 0) :
    ¬ RoundTrips (longChain n) false PageFile.new
      ⟨WalkOrder.byKey, WalkOrder.byKey, WalkOrder.byKey⟩ none := by
  rintro ⟨saved, hsave, hload⟩
  cases hsave
  obtain ⟨s, hs, hall⟩ := hload fun hp => absurd hp Bool.false_ne_true
  have hcount : leNat (le 4 ((longChain n).mergedChain [1]).length) = 0 := by
    rw [leNat_le, mergedChain_longChain, List.length_map, List.length_range]
    exact hzero
  have hentry : ∃ rest, readIndexEntry ((longChain n).encodeEntry [1]) = .ok (([1], []), rest) := by
    refine ⟨((longChain n).mergedChain [1]).flatMap VersionNode.encode, ?_⟩
    have hone : leNat (le 2 ([1] : Key).length) = ([1] : Key).length := rfl
    rw [encodeEntry, encodeKey_eq (by decide), encodeNodes]
    simp only [List.append_assoc, readIndexEntry, takeBytes_append _ (length_le _ _), hone,
      takeBytes_append _ rfl, hcount, readNodes]
  obtain ⟨rest, hentry⟩ := hentry
  have hread : loadFromFile (some ((longChain n).indexFile WalkOrder.byKey)) none =
      .ok ⟨SortedMap.empty.insert [1] [], none⟩ := by
    have hkeys : (longChain n).keys = [[1]] := rfl
    have hmagic : leNat (le 8 (longChain n).magic) = kVidxMagicV1 := by
      change leNat (le 8 kVidxMagicV1) = kVidxMagicV1
      decide
    have hnum : leNat (le 8 [([1] : Key)].length) = 1 := by decide
    have hknown : ¬ (kVidxMagicV1 ≠ kVidxMagicV1 ∧ kVidxMagicV1 ≠ kVidxMagicV2Flag) :=
      fun h => h.1 rfl
    have horder : WalkOrder.byKey.order [[1]] = [[1]] := rfl
    rw [loadFromFile, indexFile, hkeys, horder]
    simp only [takeBytes_append _ (length_le 8 _), hmagic, hknown, if_false, hnum,
      List.flatMap_cons, List.flatMap_nil, List.append_nil, loadEntries, hentry]
    rfl
  rw [hread] at hs
  cases hs
  obtain ⟨hm, -⟩ := hall [1]
  rw [mergedChain_longChain] at hm
  have hnil : [] = (List.range n).map fun i => (⟨i + 1, 0⟩ : VersionNode) := Option.some.inj hm
  have hlen := congrArg List.length hnil
  rw [List.length_map, List.length_range] at hlen
  exact absurd hlen (Nat.ne_of_lt hpos)

/-- **A chain of `2 ^ 32` versions is lost**: the index file has 32 bits for their number. -/
theorem long_chain_lost : ¬ ∀ v a, Run v a → Sized v → ∀ metaPath pages ord files,
    RoundTrips v metaPath pages ord files := by
  intro hall
  obtain ⟨a, hr⟩ := run_longChain (2 ^ 32 - 1)
  exact not_roundTrips_longChain (n := 2 ^ 32 - 1 + 1) (by decide) (by decide)
    (hall _ a hr (sized_longChain (by decide)) false PageFile.new
      ⟨WalkOrder.byKey, WalkOrder.byKey, WalkOrder.byKey⟩ none)

end SpillingChainStore
end EBTree.Engine
