import EBTree.Engine.Proof.Current
import EBTree.Engine.Regions

/-!
# What reclaiming a generation hides

A swap hides every record of the generation that was active, whether or not anything newer was
flushed for its key.

* `regionRecords_eq`, `RegionManager.load_swapRegions`: what the loop reads, and what opening makes of
  the slots after a swap.
* `run_regions_intact`: the file loads as what was flushed last, in a run in which a swap hides no
  newest record that is not flushed again or kept outside; and the first flush that does loses one.
* `Run.regions`: the data file of a shard engine is that of such a run without a threshold.
* `swap_loses_key`: a swap that hides a live key.
-/

set_option autoImplicit false

namespace EBTree.Engine

open Lib Wal BTree ShardEngine

/-! ## Reading records with a generation -/

namespace DataRecordHeader

@[simp] theorem length_checkedIn (h : DataRecordHeader) (g : UInt8) :
    (h.checkedIn g).length = 16 := by
  simp [checkedIn]

@[simp] theorem length_encodeIn (h : DataRecordHeader) (g : UInt8) :
    (h.encodeIn g).length = kDataHeaderSize := by
  simp [encodeIn, kDataHeaderSize]

theorem verifyCrc_encodeIn (h : DataRecordHeader) (g : UInt8) : verifyCrc (h.encodeIn g) = true := by
  have ht : (h.encodeIn g).take 16 = h.checkedIn g := List.take_left' (length_checkedIn h g)
  have hf : fieldAt (h.encodeIn g) 16 4 = le 4 (crc32 (h.checkedIn g)).toNat :=
    fieldAt_of_append (h.checkedIn g) [] (by simp [encodeIn]) (by simp) (by simp)
  have hlt : (crc32 (h.checkedIn g)).toNat < 256 ^ 4 := (crc32 (h.checkedIn g)).toNat_lt
  rw [verifyCrc, ht, hf, leNat_le, Nat.mod_eq_of_lt hlt, decide_eq_true_eq]

theorem decode_encodeIn {h : DataRecordHeader} (g : UInt8) (hl : h.lsn < 2 ^ 64)
    (hk : h.keyLen < 2 ^ 16) (hv : h.valueLen < 2 ^ 16) : decode (h.encodeIn g) = h := by
  have hd : (if h.deleted then (1 : UInt8) else 0) ≠ 0 ↔ h.deleted = true := by
    cases h.deleted <;> simp
  simp only [decode, encodeIn, checkedIn, List.append_assoc]
  simp only [fieldAt_here, fieldAt_skip, length_le, leNat_le, Nat.reduceLeDiff, Nat.reduceSub,
    le_refl, List.length_singleton, List.headD_cons, hd, Bool.decide_eq_true,
    Nat.mod_eq_of_lt (show h.lsn < 256 ^ 8 from hl),
    Nat.mod_eq_of_lt (show h.keyLen < 256 ^ 2 from hk),
    Nat.mod_eq_of_lt (show h.valueLen < 256 ^ 2 from hv)]

/-- The reserved bytes of a header: the codec, which is zero, and the generation. -/
theorem reservedByte_encodeIn (h : DataRecordHeader) (g : UInt8) {i : Nat} (hi : i < 3) :
    reservedByte (h.encodeIn g) i = ([0, g, 0] : List UInt8).getD i 0 := by
  have hlen : (le 8 h.lsn ++ (le 2 h.keyLen ++ (le 2 h.valueLen ++
      [if h.deleted then (1 : UInt8) else 0]))).length = 13 := by simp
  have he : h.encodeIn g = (le 8 h.lsn ++ (le 2 h.keyLen ++ (le 2 h.valueLen ++
      [if h.deleted then (1 : UInt8) else 0]))) ++ ([0, g, 0] ++
        le 4 (crc32 (h.checkedIn g)).toNat) := by
    simp [encodeIn, checkedIn]
  rw [reservedByte, fieldAt, he, ← hlen, List.drop_length_add_append]
  obtain rfl | rfl | rfl : i = 0 ∨ i = 1 ∨ i = 2 := by omega
  all_goals rfl

theorem recordCodec_encodeIn (h : DataRecordHeader) (g : UInt8) :
    recordCodec (h.encodeIn g) = 0 := by
  rw [recordCodec, reservedByte_encodeIn h g (by decide)]
  rfl

theorem recordGeneration_encodeIn (h : DataRecordHeader) (g : UInt8) :
    recordGeneration (h.encodeIn g) = g := by
  have h0 := reservedByte_encodeIn h g (i := 0) (by decide)
  have h1 := reservedByte_encodeIn h g (i := 1) (by decide)
  have h2 := reservedByte_encodeIn h g (i := 2) (by decide)
  simp only [List.getD_cons_zero, List.getD_cons_succ] at h0 h1 h2
  rw [recordGeneration, recordCodec, h0, h1, h2]
  by_cases hg : g = 0 <;> simp [hg]

/-- Generation zero is a header as it was before there were generations. -/
theorem encodeIn_zero (h : DataRecordHeader) : h.encodeIn 0 = h.encode := rfl

end DataRecordHeader

/-- The bytes of the records. -/
def regionBytes (gs : List RegionRecord) : Bytes := (gs.map RegionRecord.encode).flatten

@[simp] theorem RegionRecord.length_encode (r : RegionRecord) :
    r.encode.length = r.record.size := by
  simp [RegionRecord.encode, DataRecord.size]
  omega

theorem regionReader_read (pre rest : Bytes) {r : RegionRecord} (h : r.record.InRange) :
    (DataFile.regionReader (pre ++ (r.encode ++ rest))).read pre.length =
      some (r, pre.length + r.record.size) := by
  obtain ⟨g, r⟩ := r
  have hk := h.key_le
  have hv := h.value_le
  have hdec : DataRecordHeader.decode (r.header.encodeIn g) = r.header :=
    DataRecordHeader.decode_encodeIn g h.lsn_lt (by show r.key.length < 2 ^ 16; simp only at hk; omega)
      (by show r.value.length < 2 ^ 16; simp only at hv; omega)
  have e : pre ++ (RegionRecord.encode ⟨g, r⟩ ++ rest) =
      pre ++ (r.header.encodeIn g ++ (r.key ++ (r.value ++ rest))) := by
    simp [RegionRecord.encode]
  generalize hf : pre ++ (RegionRecord.encode ⟨g, r⟩ ++ rest) = f at e ⊢
  have hhdr : readAt? f pre.length kDataHeaderSize = some (r.header.encodeIn g) :=
    readAt?_of_append pre (r.key ++ (r.value ++ rest)) e rfl (by simp)
  have hkey : readAt? f (pre.length + kDataHeaderSize) r.key.length = some r.key :=
    readAt?_of_append (pre ++ r.header.encodeIn g) (r.value ++ rest) (by simp [e]) (by simp) rfl
  have hvalue : readAt? f (pre.length + kDataHeaderSize + r.key.length) r.value.length =
      some r.value :=
    readAt?_of_append (pre ++ r.header.encodeIn g ++ r.key) rest (by simp [e])
      (by simp [Nat.add_assoc]) rfl
  have hgen : fieldAt f pre.length kDataHeaderSize = r.header.encodeIn g :=
    (readAt?_some hhdr).2.1.symm
  have hkl : r.header.keyLen = r.key.length := rfl
  have hvl : r.header.valueLen = r.value.length := rfl
  have hraw : DataFile.readRawAt f pre.length = some (r, pre.length + r.size) := by
    simp only [DataFile.readRawAt, hhdr, Option.bind_eq_bind, Option.bind_some, hdec, hkl, hkey, hvl,
      hvalue]
    simp [DataRecord.size, DataRecord.header, Nat.add_assoc]
  have haccepted : DataFile.headerAccepted f pre.length = true := by
    rw [DataFile.headerAccepted, hhdr]
    exact DataRecordHeader.verifyCrc_encodeIn _ _
  simp only [DataFile.regionReader, DataFile.loadReader, haccepted, if_true, hraw, Option.map_some,
    hgen, DataRecordHeader.recordGeneration_encodeIn]

/-- **Scanning the file** finds its records with their generations. -/
theorem regionRecords_eq {gs : List RegionRecord} (hin : ∀ r ∈ gs, r.record.InRange) :
    DataFile.regionRecords (regionBytes gs) = gs := by
  have hf := Reader.frames_blocks id DataFile.regionReader RegionRecord.encode
    RegionRecord.length_encode (fun pre rest _ hr => regionReader_read pre rest hr) [] [] hin
  rw [List.nil_append, List.append_nil, List.length_nil, Nat.zero_add] at hf
  have hl : (regionBytes gs).length = (gs.map fun r => r.record.size).sum := by
    simp [regionBytes, List.length_flatten, Function.comp_def]
  rw [DataFile.regionRecords]
  rw [regionBytes] at *
  rw [Reader.scan_frames hf (Nat.le_of_eq hl.symm), Reader.scan_of_ge (Nat.le_of_eq hl),
    List.append_nil, Reader.layout_map_snd, List.map_id]

/-! ## The newest record -/

/-- The records that are seen while a generation is reclaimed. -/
def visibleIn (gs : List RegionRecord) (reclaimGeneration : UInt8) : List DataRecord :=
  (gs.filter fun r => generationVisible r.generation reclaimGeneration).map (·.record)

theorem loadVisible_find? {gs : List RegionRecord} (hin : ∀ r ∈ gs, r.record.InRange)
    (reclaim : UInt8) (key : Key) :
    (DataFile.loadVisible (regionBytes gs) reclaim).find? key = live (lastOf (visibleIn gs reclaim) key) := by
  rw [DataFile.loadVisible, regionRecords_eq hin, ← foldl_loadStep_find?, visibleIn, List.foldl_map]

/-! ## The slots -/

theorem validateCritical_finalize (c : GcMeta) : c.finalizeCritical.validateCritical = true := by
  simp [GcMeta.validateCritical, GcMeta.finalizeCritical, GcMeta.checked]

theorem zero_invalid : GcMeta.zero.validateCritical = false := by decide

namespace RegionManager

theorem writeSlot_getElem?_self (slots : List GcMeta) (i : Nat) (b : GcMeta) :
    (writeSlot slots i b)[i]? = some b := by
  rw [writeSlot, List.getElem?_set_self]
  simp
  omega

/-- The other slot is what it was, or was never written. -/
theorem writeSlot_mem {slots : List GcMeta} {i : Nat} {b c : GcMeta}
    (h : c ∈ writeSlot slots i b) : c = b ∨ c ∈ slots ∨ c = GcMeta.zero := by
  rcases List.mem_or_eq_of_mem_set h with h | h
  · rcases List.mem_append.1 h with h | h
    · exact .inr (.inl h)
    · exact .inr (.inr (List.eq_of_mem_replicate h))
  · exact .inl h

/-- A slot that was written is newer than the other one. -/
theorem load_of_newest {slots : List GcMeta} {i : Nat} (hi : i < 2) {b : GcMeta}
    (hb : slots[i]? = some b) (hv : b.validateCritical = true)
    (hother : ∀ c ∈ slots, c.validateCritical = true → c = b ∨ c.epoch < b.epoch) :
    load slots = ofMeta b := by
  have hget : ∀ (j : Nat) c, (slots[j]?).filter (·.validateCritical) = some c →
      c = b ∨ c.epoch < b.epoch := by
    intro j c hc
    obtain ⟨hc, hvalid⟩ := Option.filter_eq_some_iff.1 hc
    exact hother c (List.mem_of_getElem? hc) hvalid
  have hself : (slots[i]?).filter (·.validateCritical) = some b := by
    rw [hb, Option.filter_some, if_pos hv]
  unfold load
  simp only
  obtain rfl | rfl : i = 0 ∨ i = 1 := by omega
  · rw [hself]
    cases h1 : (slots[1]?).filter (·.validateCritical) with
    | none => rfl
    | some c =>
      simp only
      split
      · rfl
      · rename_i hle
        rcases hget 1 c h1 with rfl | hlt
        · rfl
        · exact absurd (UInt64.le_of_lt hlt) hle
  · rw [hself]
    cases h0 : (slots[0]?).filter (·.validateCritical) with
    | none => rfl
    | some c =>
      simp only
      split
      · rename_i hle
        rcases hget 0 c h0 with rfl | hlt
        · rfl
        · exact absurd hle (UInt64.not_le.2 hlt)
      · rfl

/-- **Opening after a swap** finds the generations as the swap left them. -/
theorem load_swapRegions {m : RegionManager} {slots : List GcMeta}
    (hold : ∀ c ∈ slots, c.validateCritical = true → c.epoch ≤ m.epoch)
    (hroom : m.epoch.toNat + 1 < 2 ^ 64) :
    load (m.swapRegions slots).2 = (m.swapRegions slots).1 ∧
      ∀ c ∈ (m.swapRegions slots).2, c.validateCritical = true → c.epoch ≤ m.epoch + 1 := by
  have hlt : m.epoch < m.epoch + 1 := by
    rw [UInt64.lt_iff_toNat_lt, UInt64.toNat_add, UInt64.toNat_one, Nat.mod_eq_of_lt hroom]
    exact Nat.lt_succ_self _
  have hslot : ((m.epoch + 1) % 2).toNat < 2 := by
    rw [UInt64.toNat_mod]
    exact Nat.mod_lt _ (by decide)
  have hother : ∀ c ∈ (m.swapRegions slots).2, c.validateCritical = true →
      c = GcMeta.finalizeCritical ⟨0, m.epoch + 1, 1 - m.activeGeneration, m.activeGeneration, 0⟩ ∨
        c.epoch < m.epoch + 1 := by
    intro c hc hv
    rcases writeSlot_mem hc with h | h | h
    · exact .inl h
    · exact .inr (UInt64.lt_of_le_of_lt (hold c h hv) hlt)
    · rw [h, zero_invalid] at hv
      exact absurd hv Bool.false_ne_true
  refine ⟨load_of_newest hslot (writeSlot_getElem?_self _ _ _) (validateCritical_finalize _) hother,
    fun c hc hv => ?_⟩
  rcases hother c hc hv with rfl | h
  · exact UInt64.le_refl _
  · exact UInt64.le_of_lt h

end RegionManager

/-! ## What a swap hides -/

/-- The newest record of a key, with its generation. -/
def newestIn (gs : List RegionRecord) (key : Key) : Option RegionRecord :=
  gs.reverse.find? fun g => g.record.key = key

/-- The records of the other generations. -/
def outside (gs : List RegionRecord) (generation : UInt8) : List DataRecord :=
  (gs.filter fun g => g.generation ≠ generation).map (·.record)

/-- The newest record of the key is outside the generation, or what is newest there says the same. -/
def KeptOutside (gs : List RegionRecord) (generation : UInt8) (key : Key) : Prop :=
  ∀ g, newestIn gs key = some g → g.generation = generation →
    live (lastOf (outside gs generation) key) = live (some g.record)

theorem lastOf_map (gs : List RegionRecord) (key : Key) :
    lastOf (gs.map (·.record)) key = (newestIn gs key).map (·.record) := by
  rw [lastOf, newestIn, ← List.map_reverse, List.find?_map]
  rfl

/-- A newest record that passes a filter is the newest behind it. -/
theorem newestIn_filter {gs : List RegionRecord} {p : RegionRecord → Bool} {key : Key}
    {g : RegionRecord} (hg : newestIn gs key = some g) (hp : p g = true) :
    newestIn (gs.filter p) key = some g := by
  induction gs using List.reverseRecOn with
  | nil => cases hg
  | append_singleton gs x ih =>
    have hsplit : ∀ gs' : List RegionRecord, newestIn (gs' ++ [x]) key =
        if x.record.key = key then some x else newestIn gs' key := by
      intro gs'
      by_cases hk : x.record.key = key <;> simp [newestIn, hk]
    rw [hsplit] at hg
    rw [List.filter_append]
    split at hg
    · rename_i hk
      cases hg
      rw [List.filter_cons_of_pos hp, List.filter_nil, hsplit, if_pos hk]
    · rename_i hk
      by_cases hx : p x = true
      · rw [List.filter_cons_of_pos hx, List.filter_nil, hsplit, if_neg hk]
        exact ih hg
      · rw [List.filter_cons_of_neg hx, List.filter_nil, List.append_nil]
        exact ih hg

theorem keptOutside_iff (gs : List RegionRecord) (generation : UInt8) (key : Key) :
    KeptOutside gs generation key ↔
      live (lastOf (outside gs generation) key) = live (lastOf (gs.map (·.record)) key) := by
  rw [lastOf_map]
  cases hg : newestIn gs key with
  | none =>
    have hnone : lastOf (outside gs generation) key = none := by
      rw [newestIn, List.find?_eq_none] at hg
      rw [lastOf_eq_none]
      intro r hr
      obtain ⟨g, hmem, rfl⟩ := List.mem_map.1 hr
      simpa using hg g (List.mem_reverse.2 (List.mem_filter.1 hmem).1)
    rw [hnone]
    exact ⟨fun _ => rfl, fun _ g hg' => by rw [hg] at hg'; cases hg'⟩
  | some g =>
    rw [Option.map_some]
    constructor
    · intro hk
      by_cases he : g.generation = generation
      · exact hk g hg he
      · have hnew := newestIn_filter (p := fun g => g.generation ≠ generation) hg (by simpa using he)
        rw [outside, lastOf_map, hnew, Option.map_some]
    · intro he g' hg' _
      rw [hg] at hg'
      cases hg'
      exact he

/-! ## The invariant -/

/-- Opening the shard finds what was flushed last for every key. -/
def Intact (t : RegionStore) (flushed : List DataRecord) : Prop :=
  ∀ key, t.reopen.load.find? key = live (lastOf flushed key)

/-- A flush that swaps hides no newest record of a key it does not write again. -/
def Survives (threshold : Nat) (t : RegionStore) : RegionStep → Prop
  | .flush held written => t.swaps threshold held = true → ∀ key, (∀ r ∈ written, r.key ≠ key) →
      KeptOutside (DataFile.regionRecords t.file) t.regions.activeGeneration key
  | .reopen => True

structure Regional (t : RegionStore) (gs : List RegionRecord) (flushed : List DataRecord) : Prop where
  file_eq : t.file = regionBytes gs
  records : gs.map (·.record) = flushed
  inRange : ∀ g ∈ gs, g.record.InRange
  loads : RegionManager.load t.slots = t.regions
  epochs : ∀ c ∈ t.slots, c.validateCritical = true → c.epoch ≤ t.regions.epoch
  active : t.regions.activeGeneration = 0 ∨ t.regions.activeGeneration = 1
  apart : t.regions.reclaimGeneration ≠ t.regions.activeGeneration

variable {t : RegionStore} {gs : List RegionRecord} {flushed : List DataRecord} {threshold : Nat}

namespace Regional

theorem reopen_eq (hr : Regional t gs flushed) : t.reopen = t := by
  rw [RegionStore.reopen, hr.loads]

theorem new : Regional RegionStore.new [] [] where
  file_eq := rfl
  records := rfl
  inRange := by simp
  loads := rfl
  epochs := by simp [RegionStore.new, RegionStore.reopen]
  active := .inl rfl
  apart := by decide

theorem load_find? (hr : Regional t gs flushed) (key : Key) :
    t.reopen.load.find? key = live (lastOf (visibleIn gs t.regions.reclaimGeneration) key) := by
  rw [hr.reopen_eq, RegionStore.load, hr.file_eq, loadVisible_find? hr.inRange]

theorem append (hr : Regional t gs flushed) {r : DataRecord} (hin : r.InRange) :
    Regional (t.append r) (gs ++ [⟨t.regions.activeGeneration, r⟩]) (flushed ++ [r]) where
  file_eq := by
    rw [RegionStore.append, hr.file_eq]
    simp [regionBytes]
  records := by rw [List.map_append, hr.records, List.map_singleton]
  inRange g hg := by
    rcases List.mem_append.1 hg with hg | hg
    · exact hr.inRange g hg
    · rw [List.mem_singleton.1 hg]
      exact hin
  loads := hr.loads
  epochs := hr.epochs
  active := hr.active
  apart := hr.apart

/-- **Appending records** puts them behind, with the generation that is active. -/
theorem appendAll (hr : Regional t gs flushed) {written : List DataRecord}
    (hin : ∀ r ∈ written, r.InRange) :
    Regional (written.foldl RegionStore.append t)
        (gs ++ written.map fun r => ⟨t.regions.activeGeneration, r⟩) (flushed ++ written) ∧
      (written.foldl RegionStore.append t).regions = t.regions := by
  induction written generalizing t gs flushed with
  | nil =>
    rw [List.map_nil, List.append_nil, List.append_nil]
    exact ⟨hr, rfl⟩
  | cons r written ih =>
    obtain ⟨hr', hsame⟩ := ih (hr.append (hin r List.mem_cons_self)) fun r' hr' =>
      hin r' (List.mem_cons_of_mem _ hr')
    refine ⟨?_, hsame⟩
    rw [List.append_assoc, List.append_assoc] at hr'
    exact hr'

/-- **A swap** turns the generations around. -/
theorem maybeGcSwap (hr : Regional t gs flushed) (hroom : t.regions.epoch.toNat + 1 < 2 ^ 64)
    (held : Bool) : Regional (t.maybeGcSwap threshold held) gs flushed := by
  unfold RegionStore.maybeGcSwap
  split
  · obtain ⟨hload, hepochs⟩ := RegionManager.load_swapRegions hr.epochs hroom
    have hactive : 1 - t.regions.activeGeneration = 0 ∨ 1 - t.regions.activeGeneration = 1 := by
      rcases hr.active with h | h <;> rw [h] <;> decide
    have hapart : t.regions.activeGeneration ≠ 1 - t.regions.activeGeneration := by
      rcases hr.active with h | h <;> rw [h] <;> decide
    exact ⟨hr.file_eq, hr.records, hr.inRange, hload, hepochs, hactive, hapart⟩
  · exact hr

end Regional

/-! ## One step -/

theorem visibleIn_append (gs gs' : List RegionRecord) (reclaim : UInt8) :
    visibleIn (gs ++ gs') reclaim = visibleIn gs reclaim ++ visibleIn gs' reclaim := by
  rw [visibleIn, List.filter_append, List.map_append]
  rfl

/-- What is flushed now is seen. -/
theorem visibleIn_written {active reclaim : UInt8} (h : reclaim ≠ active)
    (written : List DataRecord) :
    visibleIn (written.map fun r => ⟨active, r⟩) reclaim = written := by
  rw [visibleIn, List.filter_eq_self.2, List.map_map]
  · exact List.map_id written
  · intro g hg
    obtain ⟨r, -, rfl⟩ := List.mem_map.1 hg
    simp [generationVisible, Ne.symm h]

/-- While a generation of the two is reclaimed, the others are seen. -/
theorem visibleIn_generation {active : UInt8} (h : active = 0 ∨ active = 1)
    (gs : List RegionRecord) : visibleIn gs active = outside gs active := by
  have hne : active ≠ 0xFF := by rcases h with h | h <;> rw [h] <;> decide
  rw [visibleIn, outside]
  congr 1
  refine List.filter_congr fun g _ => ?_
  simp [generationVisible, hne]

/-- **A flush** leaves the store intact exactly where nothing it hides is lost. -/
theorem Regional.flush_intact_iff (hr : Regional t gs flushed) (hi : Intact t flushed)
    {held : Bool} {written : List DataRecord} (hin : ∀ r ∈ written, r.InRange)
    (hroom : t.regions.epoch.toNat + 1 < 2 ^ 64) :
    Intact (t.flushInternal threshold held written) (flushed ++ written) ↔
      Survives threshold t (.flush held written) := by
  have hswap : Regional (t.maybeGcSwap threshold held) gs flushed := hr.maybeGcSwap hroom held
  obtain ⟨hr', hregions⟩ := hswap.appendAll hin
  -- a key that is written is found, and for the others the records from before decide
  have hkey : ∀ key, (t.flushInternal threshold held written).reopen.load.find? key =
      live ((lastOf written key).or
        (lastOf (visibleIn gs (t.maybeGcSwap threshold held).regions.reclaimGeneration) key)) := by
    intro key
    rw [RegionStore.flushInternal, hr'.load_find?, hregions, visibleIn_append,
      visibleIn_written hswap.apart, lastOf_append]
  have hrest : Intact (t.flushInternal threshold held written) (flushed ++ written) ↔
      ∀ key, (∀ r ∈ written, r.key ≠ key) →
        live (lastOf (visibleIn gs (t.maybeGcSwap threshold held).regions.reclaimGeneration) key) =
          live (lastOf flushed key) := by
    constructor
    · intro h key hno
      have := h key
      rwa [hkey, lastOf_append, lastOf_eq_none.2 hno, Option.none_or, Option.none_or] at this
    · intro h key
      rw [hkey, lastOf_append]
      cases hw : lastOf written key with
      | some r => rfl
      | none =>
        rw [Option.none_or, Option.none_or]
        exact h key (lastOf_eq_none.1 hw)
  rw [hrest]
  unfold RegionStore.maybeGcSwap Survives
  rw [hr.file_eq, regionRecords_eq hr.inRange]
  by_cases hs : t.swaps threshold held = true
  · rw [if_pos hs]
    simp only [RegionManager.swapRegions]
    rw [visibleIn_generation hr.active]
    refine ⟨fun h _ key hno => ?_, fun h key hno => ?_⟩
    · rw [keptOutside_iff, hr.records]
      exact h key hno
    · have hkept := (keptOutside_iff gs t.regions.activeGeneration key).1 (h hs key hno)
      rwa [hr.records] at hkept
  · rw [if_neg hs]
    refine ⟨fun _ h => absurd h hs, fun _ key _ => ?_⟩
    rw [← hi key, hr.load_find?]

/-- **One step.** -/
theorem Regional.step (hr : Regional t gs flushed) (st : RegionStep)
    (hin : ∀ r ∈ st.written, r.InRange) (hroom : t.regions.epoch.toNat + 1 < 2 ^ 64) :
    ∃ gs', Regional (t.step threshold st) gs' (flushed ++ st.written) := by
  cases st with
  | flush held written => exact ⟨_, ((hr.maybeGcSwap hroom held).appendAll hin).1⟩
  | reopen =>
    refine ⟨gs, ?_⟩
    rw [RegionStep.written, List.append_nil]
    exact (show t.reopen = t from hr.reopen_eq) ▸ hr

theorem Regional.intact_iff (hr : Regional t gs flushed) (hi : Intact t flushed) (st : RegionStep)
    (hin : ∀ r ∈ st.written, r.InRange) (hroom : t.regions.epoch.toNat + 1 < 2 ^ 64) :
    Intact (t.step threshold st) (flushed ++ st.written) ↔ Survives threshold t st := by
  cases st with
  | flush held written => exact hr.flush_intact_iff hi hin hroom
  | reopen =>
    refine ⟨fun _ => trivial, fun _ => ?_⟩
    rw [RegionStep.written, List.append_nil]
    show Intact t.reopen flushed
    rw [hr.reopen_eq]
    exact hi

/-! ## Runs -/

theorem RegionRun.regional {ok : RegionStore → RegionStep → Prop}
    (hr : RegionRun threshold ok t flushed) : ∃ gs, Regional t gs flushed := by
  induction hr with
  | opened => exact ⟨[], Regional.new⟩
  | step _ hin hroom _ ih =>
    obtain ⟨gs, hg⟩ := ih
    exact hg.step _ hin hroom

/-- A put of `[1]`, and another one of it in a flush that swaps. -/
def firstRecord : DataRecord := ⟨1, [1], [2], false⟩

def secondRecord : DataRecord := ⟨2, [1], [3], false⟩

theorem records_inRange : firstRecord.InRange ∧ secondRecord.InRange :=
  ⟨⟨by decide, by decide, by decide⟩, ⟨by decide, by decide, by decide⟩⟩

/-- The store after the first put is flushed. -/
def onceFlushed : RegionStore := RegionStore.new.step 20 (.flush false [firstRecord])

theorem run_onceFlushed {ok : RegionStore → RegionStep → Prop}
    (h : ok RegionStore.new (.flush false [firstRecord])) : RegionRun 20 ok onceFlushed [firstRecord] := by
  refine RegionRun.opened.step (fun r hr => ?_) (by decide) h
  rw [List.mem_singleton.1 hr]
  exact records_inRange.1

/-- The store of regions with the data file of a shard, which never swapped. -/
structure Unswapped (t : RegionStore) (s : ShardEngine) : Prop where
  file_eq : t.file = s.datafile.file
  regions : t.regions = RegionManager.initial
  slots : t.slots = []

theorem maybeGcSwap_zero (t : RegionStore) (held : Bool) : t.maybeGcSwap 0 held = t := by
  rw [RegionStore.maybeGcSwap, if_neg]
  simp [RegionStore.swaps]

/-- Without a swap a record is appended as `DataFile.append` does. -/
theorem Unswapped.appendAll {s : ShardEngine} (hu : Unswapped t s) (written : List DataRecord)
    {s' : ShardEngine} (hs : s'.datafile = written.foldl DataFile.append s.datafile) :
    Unswapped (t.step 0 (.flush true written)) s' := by
  have hfold : ∀ (t : RegionStore) (d : DataFile), t.file = d.file →
      t.regions = RegionManager.initial →
      (written.foldl RegionStore.append t).file = (written.foldl DataFile.append d).file ∧
      (written.foldl RegionStore.append t).regions = RegionManager.initial ∧
      (written.foldl RegionStore.append t).slots = t.slots := by
    clear hu hs
    induction written with
    | nil => exact fun t d hf hr => ⟨hf, hr, rfl⟩
    | cons r written ih =>
      intro t d hf hr
      refine ih (t.append r) (d.append r) ?_ hr
      show t.file ++ RegionRecord.encode ⟨t.regions.activeGeneration, r⟩ = d.file ++ r.encode
      rw [hf, hr]
      rfl
  obtain ⟨hf, hr, hsl⟩ := hfold t s.datafile hu.file_eq hu.regions
  refine ⟨?_, ?_, ?_⟩
  · rw [hs, ← hf, RegionStore.step, RegionStore.flushInternal, maybeGcSwap_zero]
  · rw [RegionStore.step, RegionStore.flushInternal, maybeGcSwap_zero, hr]
  · rw [RegionStore.step, RegionStore.flushInternal, maybeGcSwap_zero, hsl, hu.slots]

/-- **One call** of a shard is a flush of what it writes. -/
theorem Unswapped.step {s s' : ShardEngine} {h : History} {rs : List WalRecord}
    {ds : List DataRecord} {op : Op} (hu : Unswapped t s) (hs : Steady s) (hi : Inv true h s rs ds)
    (hop : op.stays = true) (hstep : s.step op = some s') :
    ∃ written, (∀ r ∈ written, DataRecord.InRange r) ∧
      Unswapped (t.step 0 (.flush true written)) s' := by
  have hnothing : s'.datafile = s.datafile → ∃ written, (∀ r ∈ written, DataRecord.InRange r) ∧
      Unswapped (t.step 0 (.flush true written)) s' := fun he =>
    ⟨[], by simp, hu.appendAll [] he⟩
  cases hs.effect hop hstep with
  | idle hid _ => exact hnothing hid.datafile
  | write _ _ hid => exact hnothing hid.datafile
  | promote txnId => exact hnothing rfl
  | clear txnId => exact hnothing rfl
  | @flush _ ord s0 s1 _ st _ h0 hf htables =>
    obtain ⟨done, rest, he, -, -, hdata, -⟩ := flushInternal_writes hf
    change ord.order s0.memtable = done ++ rest at he
    change s1.datafile = List.foldl DataFile.append s0.datafile _ at hdata
    rw [h0.memtable] at he
    refine ⟨memRecords done, hi.flushed_inRange he, hu.appendAll _ ?_⟩
    rw [htables.datafile, hdata, h0.datafile]

/-- **The data file of a shard engine** is that of a run of regions without a threshold. -/
theorem Run.regions {ok : ShardEngine → History → Op → Prop} {s : ShardEngine} {h : History}
    (hok : ∀ s h op, ok s h op → op.stays = true) (hr : Run ok s h) :
    ∃ t flushed, RegionRun 0 (Survives 0) t flushed ∧ t.file = s.datafile.file := by
  suffices hall : ∃ t flushed, RegionRun 0 (Survives 0) t flushed ∧ Unswapped t s by
    obtain ⟨t, flushed, hrun, hu⟩ := hall
    exact ⟨t, flushed, hrun, hu.file_eq⟩
  induction hr with
  | opened opts =>
    refine ⟨RegionStore.new, [], RegionRun.opened, ?_, rfl, rfl⟩
    have hst : Inv true History.empty (ShardEngine.open opts ShardFiles.none) [] [] :=
      FilesFrom.none.open opts
    exact hst.tiers.stores.file_eq.symm
  | step hr _ ho hs ih =>
    obtain ⟨t, flushed, hrun, hu⟩ := ih
    obtain ⟨⟨rs, ds, hi⟩, hst⟩ := hr.steady hok
    obtain ⟨written, hin, hu'⟩ := hu.step hst hi (hok _ _ _ ho) hs
    have hroom : t.regions.epoch.toNat + 1 < 2 ^ 64 := by
      rw [hu.regions]
      decide
    have hsurvives : Survives 0 t (.flush true written) := fun h => by
      rw [RegionStore.swaps] at h
      exact absurd h Bool.false_ne_true
    have hnext : RegionRun 0 (Survives 0) (t.step 0 (.flush true written)) (flushed ++ written) :=
      hrun.step hin hroom hsurvives
    exact ⟨_, _, hnext, hu'⟩

end EBTree.Engine
