import EBTree.Engine.DatafileLoad
import EBTree.Engine.Proof.Regions

/-!
# Windows against the whole file

A load window by window goes through the same rounds as a load of the whole file.

* `parseStep_window`: a round that does not stop in a window is the same round in the file.
* `parseStep_stop`: a round stops at a limit, or where less than the largest record is left.
* `parseLoop_window`: the rounds in a window, as rounds of the file.
* `loadDatafileMmap_agrees`: the status and the map are the same, and the largest LSN where the load
  succeeds.
-/

set_option autoImplicit false

namespace EBTree.Engine

open Lib Codec

/-! ## Parts of a file -/

theorem fieldAt_fieldAt {f : Bytes} {o n p k : Nat} (h : p + k ≤ n) :
    fieldAt (fieldAt f o n) p k = fieldAt f (o + p) k := by
  unfold fieldAt
  rw [List.drop_take, List.take_take, List.drop_drop, Nat.min_eq_left (by omega)]

theorem readAt?_fieldAt {f : Bytes} {o n p k : Nat} (hn : o + n ≤ f.length) (h : p + k ≤ n) :
    readAt? (fieldAt f o n) p k = readAt? f (o + p) k := by
  have hlen := length_fieldAt hn
  have hpart : fieldAt (fieldAt f o n) p k = fieldAt f (o + p) k := fieldAt_fieldAt h
  unfold fieldAt at hpart
  unfold readAt?
  rw [hlen, if_pos h, if_pos (by omega)]
  exact congrArg some hpart

/-- `sizeof(DataRecordHeader)` with the longest key and the longest value. -/
def kMaxRecordSize : Nat := 131090

theorem header_bound (bs : Bytes) (pos : Nat) :
    pos + kDataHeaderSize + (DataRecordHeader.decode bs).keyLen +
      (DataRecordHeader.decode bs).valueLen ≤ pos + kMaxRecordSize := by
  have hfield : ∀ o, leNat (fieldAt bs o 2) < 256 ^ 2 := by
    intro o
    have hle : (fieldAt bs o 2).length ≤ 2 := List.length_take_le _ _
    exact Nat.lt_of_lt_of_le (leNat_lt _) (Nat.pow_le_pow_right (by decide) hle)
  have hk := hfield 8
  have hv := hfield 10
  simp only [DataRecordHeader.decode, kDataHeaderSize, kMaxRecordSize]
  omega

/-! ## One round -/

/-- A round as one that started `o` bytes further on. -/
def ParseStep.shift (o : Nat) : ParseStep → ParseStep
  | .stop => .stop
  | .fail e => .fail e
  | .next pos out localMax => .next (o + pos) out localMax

section
variable {L : LzmaLib} {caps : LoadCaps} {file : Bytes} {o n : Nat}

/-- **A round that does not stop in a window**, or in one that ends with the file, is the same
round in the file. -/
theorem parseStep_window (hn : o + n ≤ file.length) {pos mx : Nat} {out : LoadedMap}
    (h : parseStep L caps (fieldAt file o n) o pos out mx ≠ .stop ∨ o + n = file.length) :
    parseStep L caps file 0 (o + pos) out mx =
      (parseStep L caps (fieldAt file o n) o pos out mx).shift o := by
  have hlen := length_fieldAt hn
  unfold parseStep at h ⊢
  simp only [Nat.zero_add, Nat.add_assoc] at h ⊢
  by_cases hcut : caps.cuts (o + (pos + 1))
  · rw [if_pos hcut, if_pos hcut]
    rfl
  · rw [if_neg hcut] at h
    rw [if_neg hcut, if_neg hcut]
    cases hr : readAt? (fieldAt file o n) pos kDataHeaderSize with
    | none =>
      rw [hr] at h
      have hshort := readAt?_eq_none_iff.1 hr
      have hend := h.resolve_left fun hne => hne rfl
      rw [readAt?_eq_none_iff.2 (by omega)]
      rfl
    | some bs =>
      have hin := (readAt?_some hr).1
      rw [hlen] at hin
      have hr' := hr
      rw [readAt?_fieldAt hn hin] at hr'
      rw [hr] at h
      rw [hr']
      simp only at h ⊢
      by_cases hmid : caps.cuts (o + (pos + kDataHeaderSize))
      · rw [if_pos hmid, if_pos hmid]
        rfl
      · rw [if_neg hmid] at h
        rw [if_neg hmid, if_neg hmid]
        generalize hk : (DataRecordHeader.decode bs).keyLen = k at h ⊢
        generalize hv : (DataRecordHeader.decode bs).valueLen = v at h ⊢
        by_cases hshort : (fieldAt file o n).length < pos + (kDataHeaderSize + (k + v))
        · rw [if_pos hshort] at h
          have hend := h.resolve_left fun hne => hne rfl
          rw [if_pos hshort, if_pos (by omega)]
          rfl
        · rw [if_neg hshort, if_neg (by omega)]
          -- the whole record is in the window: its bytes are those of the file
          rw [hlen] at hshort
          rw [fieldAt_fieldAt (by omega), fieldAt_fieldAt (by omega)]
          split
          · rfl
          · split
            · rfl
            · split
              · rfl
              · split
                · rfl
                · cases decodeRecordValue L bs
                    (fieldAt file (o + (pos + (kDataHeaderSize + k))) v) <;> rfl

/-- **A round stops** at a limit, or where less than the largest record is left. -/
theorem parseStep_stop {data : Bytes} {base pos mx : Nat} {out : LoadedMap}
    (h : parseStep L caps data base pos out mx = .stop) :
    caps.cuts (base + pos + 1) ∨ data.length < pos + kMaxRecordSize := by
  unfold parseStep at h
  split at h
  · exact .inl ‹_›
  · refine .inr ?_
    cases hr : readAt? data pos kDataHeaderSize with
    | none =>
      have := readAt?_eq_none_iff.1 hr
      simp only [kDataHeaderSize, kMaxRecordSize] at this ⊢
      omega
    | some bs =>
      rw [hr] at h
      have hb := header_bound bs pos
      simp only at h
      split at h
      · cases h
      · split at h
        · omega
        · exfalso
          split at h
          · cases h
          · split at h
            · cases h
            · split at h
              · cases h
              · split at h
                · cases h
                · split at h <;> cases h

/-- A round goes on behind the record, which the data holds. -/
theorem parseStep_next_pos {data : Bytes} {base pos mx pos' mx' : Nat} {out out' : LoadedMap}
    (h : parseStep L caps data base pos out mx = .next pos' out' mx') :
    ∃ bs, readAt? data pos kDataHeaderSize = some bs ∧
      pos' = pos + kDataHeaderSize + (DataRecordHeader.decode bs).keyLen +
        (DataRecordHeader.decode bs).valueLen ∧ pos' ≤ data.length := by
  unfold parseStep at h
  split at h
  · cases h
  · cases hr : readAt? data pos kDataHeaderSize with
    | none =>
      rw [hr] at h
      cases h
    | some bs =>
      rw [hr] at h
      simp only at h
      split at h
      · cases h
      · split at h
        · cases h
        · have hnext : pos' = pos + kDataHeaderSize + (DataRecordHeader.decode bs).keyLen +
              (DataRecordHeader.decode bs).valueLen := by
            split at h
            · cases h
              rfl
            · split at h
              · cases h
              · split at h
                · cases h
                  rfl
                · split at h
                  · cases h
                    rfl
                  · split at h
                    · cases h
                    · cases h
                      rfl
          exact ⟨bs, rfl, hnext, by omega⟩

theorem parseStep_next {data : Bytes} {base pos mx pos' mx' : Nat} {out out' : LoadedMap}
    (h : parseStep L caps data base pos out mx = .next pos' out' mx') :
    pos < pos' ∧ pos' ≤ data.length := by
  obtain ⟨bs, -, hpos, hle⟩ := parseStep_next_pos h
  refine ⟨?_, hle⟩
  simp only [kDataHeaderSize] at hpos
  omega

/-! ## The rounds of a window -/

theorem parseLoop_stable {data : Bytes} {base : Nat} {f g pos mx : Nat} {out : LoadedMap}
    (hf : data.length - pos ≤ f) (hg : data.length - pos ≤ g) :
    parseLoop L caps data base f pos out mx = parseLoop L caps data base g pos out mx := by
  induction f generalizing g pos mx out with
  | zero =>
    cases g with
    | zero => rfl
    | succ g => rw [parseLoop, parseLoop, if_pos (by omega)]
  | succ f ih =>
    cases g with
    | zero => rw [parseLoop, parseLoop, if_pos (by omega)]
    | succ g =>
      rw [parseLoop, parseLoop]
      split
      · rfl
      · cases hs : parseStep L caps data base pos out mx with
        | stop => rfl
        | fail e => rfl
        | next pos' out' mx' =>
          obtain ⟨h1, h2⟩ := parseStep_next hs
          exact ih (by omega) (by omega)

theorem parseLoop_end {data : Bytes} {base fuel pos mx : Nat} {out : LoadedMap}
    (h : data.length ≤ pos) :
    parseLoop L caps data base fuel pos out mx = ⟨.ok (), pos, out, mx⟩ := by
  cases fuel with
  | zero => rfl
  | succ fuel => rw [parseLoop, if_pos h]

/-- The loop over the whole file from `pos` on. -/
def parseFrom (L : LzmaLib) (caps : LoadCaps) (file : Bytes) (pos : Nat) (out : LoadedMap)
    (mx : Nat) : ParseResult :=
  parseLoop L caps file 0 (file.length - pos) pos out mx

theorem parseFrom_next {pos mx pos' mx' : Nat} {out out' : LoadedMap} (hlt : pos < file.length)
    (h : parseStep L caps file 0 pos out mx = .next pos' out' mx') :
    parseFrom L caps file pos out mx = parseFrom L caps file pos' out' mx' := by
  obtain ⟨h1, h2⟩ := parseStep_next h
  obtain ⟨d, hd⟩ : ∃ d, file.length - pos = d + 1 := ⟨file.length - pos - 1, by omega⟩
  rw [parseFrom, hd, parseLoop, if_neg (by omega), h]
  exact parseLoop_stable (by omega) (Nat.le_refl _)

theorem parseFrom_fail {pos mx : Nat} {out : LoadedMap} {e : Status} (hlt : pos < file.length)
    (h : parseStep L caps file 0 pos out mx = .fail e) :
    parseFrom L caps file pos out mx = ⟨.error e, pos, out, mx⟩ := by
  obtain ⟨d, hd⟩ : ∃ d, file.length - pos = d + 1 := ⟨file.length - pos - 1, by omega⟩
  rw [parseFrom, hd, parseLoop, if_neg (by omega), h]

/-- At the end of the file, or where a round stops. -/
theorem parseFrom_done {pos mx : Nat} {out : LoadedMap}
    (h : file.length ≤ pos ∨ parseStep L caps file 0 pos out mx = .stop) :
    parseFrom L caps file pos out mx = ⟨.ok (), pos, out, mx⟩ := by
  by_cases hge : file.length ≤ pos
  · exact parseLoop_end hge
  · obtain ⟨d, hd⟩ : ∃ d, file.length - pos = d + 1 := ⟨file.length - pos - 1, by omega⟩
    rw [parseFrom, hd, parseLoop, if_neg hge, h.resolve_left hge]

/-- **The rounds of a window are rounds of the file**: a failure is one of the file, otherwise the
file goes on behind what was consumed. -/
theorem parseLoop_window (hn : o + n ≤ file.length) {fuel pos mx : Nat} {out : LoadedMap}
    {r : ParseResult} (hr : parseLoop L caps (fieldAt file o n) o fuel pos out mx = r) :
    pos ≤ r.consumed ∧
    (∀ e, r.status = .error e → parseFrom L caps file (o + pos) out mx =
      ⟨.error e, o + r.consumed, r.out, r.maxLsn⟩) ∧
    (∀ u, r.status = .ok u → parseFrom L caps file (o + pos) out mx =
      parseFrom L caps file (o + r.consumed) r.out r.maxLsn) := by
  have hlen := length_fieldAt hn
  have hend : ∀ pos out mx, r = ⟨.ok (), pos, out, mx⟩ → pos ≤ r.consumed ∧
      (∀ e, r.status = .error e → parseFrom L caps file (o + pos) out mx =
        ⟨.error e, o + r.consumed, r.out, r.maxLsn⟩) ∧
      (∀ u, r.status = .ok u → parseFrom L caps file (o + pos) out mx =
        parseFrom L caps file (o + r.consumed) r.out r.maxLsn) := by
    rintro pos out mx rfl
    exact ⟨Nat.le_refl _, (by rintro e ⟨⟩), fun u hu => rfl⟩
  induction fuel generalizing pos mx out with
  | zero => exact hend _ _ _ hr.symm
  | succ fuel ih =>
    rw [parseLoop] at hr
    split at hr
    · exact hend _ _ _ hr.symm
    · rename_i hlt
      have hpos : o + pos < file.length := by omega
      cases hs : parseStep L caps (fieldAt file o n) o pos out mx with
      | stop =>
        rw [hs] at hr
        exact hend _ _ _ hr.symm
      | fail e =>
        have hw := parseStep_window hn (.inl (by rw [hs]; rintro ⟨⟩))
        rw [hs] at hr hw
        subst hr
        refine ⟨Nat.le_refl _, ?_, (by rintro u ⟨⟩)⟩
        rintro e' ⟨⟩
        exact parseFrom_fail hpos hw
      | next pos' out' mx' =>
        have hw := parseStep_window hn (.inl (by rw [hs]; rintro ⟨⟩))
        rw [hs] at hr hw
        obtain ⟨hle, herr, hok⟩ := ih hr
        rw [parseFrom_next hpos hw]
        exact ⟨Nat.le_trans (Nat.le_of_lt (parseStep_next hs).1) hle, herr, hok⟩

/-- A window in which nothing was consumed. -/
theorem parseLoop_none (hn : o + n ≤ file.length) (hpos : 0 < n) {u : Unit} {mx mx' : Nat}
    {out out' : LoadedMap}
    (hr : parseLoop L caps (fieldAt file o n) o (fieldAt file o n).length 0 out mx =
      ⟨.ok u, 0, out', mx'⟩) :
    out' = out ∧ mx' = mx ∧ parseStep L caps (fieldAt file o n) o 0 out mx = .stop := by
  have hlen := length_fieldAt hn
  obtain ⟨d, hd⟩ : ∃ d, (fieldAt file o n).length = d + 1 := ⟨n - 1, by omega⟩
  rw [hd, parseLoop, if_neg (by omega)] at hr
  cases hs : parseStep L caps (fieldAt file o n) o 0 out mx with
  | stop =>
    rw [hs] at hr
    cases hr
    exact ⟨rfl, rfl, rfl⟩
  | fail e =>
    rw [hs] at hr
    cases hr
  | next pos' out' mx' =>
    rw [hs] at hr
    have hle := (parseLoop_window hn hr).1
    have hlt := (parseStep_next hs).1
    exact absurd hlt (Nat.not_lt.2 hle)

/-! ## Windows -/

/-- The active window is a part of the file. -/
def MmapWindowManager.Mapped (m : MmapWindowManager) (file : Bytes) : Prop :=
  ∀ start view, m.active = some (start, view) →
    start + view.length ≤ file.length ∧ view = fieldAt file start view.length

theorem mapReadOnly_mapped {start length : Nat} {view : Bytes}
    (h : MmapWindowManager.mapReadOnly file o length = some (start, view)) :
    start = o ∧ start + view.length ≤ file.length ∧ view = fieldAt file start view.length ∧
      view.length = min length (file.length - o) := by
  unfold MmapWindowManager.mapReadOnly at h
  split at h
  · cases h
  · rename_i hne
    rw [not_or] at hne
    cases h
    have hin : o + min length (file.length - o) ≤ file.length := by omega
    rw [length_fieldAt hin]
    exact ⟨rfl, hin, rfl, rfl⟩

theorem openReadOnly_mapped (windowSize : Nat) :
    (MmapWindowManager.openReadOnly windowSize file).Mapped file := by
  intro start view h
  obtain ⟨rfl, h1, h2, -⟩ := mapReadOnly_mapped h
  exact ⟨h1, h2⟩

/-- **A pinned window** holds the bytes of the file from its offset on. -/
theorem pinWindow_spec {m : MmapWindowManager} (hm : m.Mapped file) (hlt : o < file.length) :
    (m.pinWindow file o).1.Mapped file ∧ (m.pinWindow file o).1.windowSize = m.windowSize ∧
      (m.pinWindow file o).2 = fieldAt file o (min m.windowSize (file.length - o)) := by
  have hremap : ∀ n, n = min m.windowSize (file.length - o) →
      MmapWindowManager.Mapped { m with active := MmapWindowManager.mapReadOnly file o n } file ∧
      ((MmapWindowManager.mapReadOnly file o n).map (·.2)).getD [] = fieldAt file o n := by
    intro n hn
    refine ⟨fun start view h => ?_, ?_⟩
    · obtain ⟨rfl, h1, h2, -⟩ := mapReadOnly_mapped h
      exact ⟨h1, h2⟩
    · unfold MmapWindowManager.mapReadOnly
      split
      · rename_i h
        have h0 : n = 0 := by omega
        simp [h0, fieldAt]
      · simp only [Option.map_some, Option.getD_some]
        rw [Nat.min_eq_left (by omega)]
  unfold MmapWindowManager.pinWindow
  rw [if_neg (by omega)]
  simp only
  obtain ⟨h1, h2⟩ := hremap _ rfl
  cases ha : m.active with
  | none => exact ⟨h1, rfl, h2⟩
  | some x =>
    obtain ⟨start, view⟩ := x
    simp only
    split
    · rename_i hin
      obtain ⟨hle, hview⟩ := hm start view ha
      refine ⟨hm, rfl, ?_⟩
      rw [hview, fieldAt_fieldAt (by omega), show start + (o - start) = o by omega]
    · exact ⟨h1, rfl, h2⟩

/-- The loads agree in their status and their map, and in the largest LSN if they succeed. -/
structure ParseResult.Agrees (r r' : ParseResult) : Prop where
  status : r.status = r'.status
  out : r.out = r'.out
  maxLsn : r.status = .ok () → r.maxLsn = r'.maxLsn

theorem loadWindows_end {fuel mx : Nat} {m : MmapWindowManager} (h : file.length ≤ o)
    {out : LoadedMap} : loadWindows L caps file fuel m o out mx = ⟨.ok (), o, out, mx⟩ := by
  cases fuel with
  | zero => rfl
  | succ fuel => rw [loadWindows, if_pos (.inl h)]

/-- One window. -/
theorem loadWindows_succ (fuel : Nat) {mx : Nat} {m : MmapWindowManager} (hm : m.Mapped file)
    (hsize : 0 < m.windowSize) (hlt : o < file.length) (hcut : ¬ caps.cuts (o + 1))
    {out : LoadedMap} {r : ParseResult} (hr : parseRecordsIncremental L caps
      (fieldAt file o (min m.windowSize (file.length - o))) o out mx = r) :
    ∃ m' : MmapWindowManager, m'.Mapped file ∧ m'.windowSize = m.windowSize ∧
      loadWindows L caps file (fuel + 1) m o out mx =
        match r.status with
        | .error e => ⟨.error e, o, r.out, r.maxLsn⟩
        | .ok _ => loadWindows L caps file fuel m'
          (o + if r.consumed = 0 then min m.windowSize (file.length - o) else r.consumed)
          r.out r.maxLsn := by
  obtain ⟨hm', hsize', hview⟩ := pinWindow_spec hm hlt
  refine ⟨(m.pinWindow file o).1, hm', hsize', ?_⟩
  have hlen : (fieldAt file o (min m.windowSize (file.length - o))).length =
      min m.windowSize (file.length - o) := length_fieldAt (by omega)
  have hne : fieldAt file o (min m.windowSize (file.length - o)) ≠ [] := by
    intro h0
    rw [h0, List.length_nil] at hlen
    omega
  rw [loadWindows, if_neg (by rw [not_or]; exact ⟨by omega, hcut⟩)]
  simp only [hview, hne, if_false, hr, hsize']
  cases r.status with
  | error e => rfl
  | ok u =>
    simp only
    by_cases h0 : r.consumed = 0
    · rw [if_pos h0, if_pos h0, if_neg (by omega)]
    · rw [if_neg h0, if_neg h0]

/-- **The windows from an offset on** load what the file holds from there on. -/
theorem loadWindows_agrees {fuel mx : Nat} {m : MmapWindowManager} (hm : m.Mapped file)
    (hsize : kMaxRecordSize ≤ m.windowSize) (hfuel : file.length - o ≤ fuel) {out : LoadedMap} :
    (loadWindows L caps file fuel m o out mx).Agrees (parseFrom L caps file o out mx) := by
  have hmax : 0 < kMaxRecordSize := by decide
  induction fuel generalizing m o mx out with
  | zero =>
    rw [loadWindows, parseFrom_done (.inl (by omega))]
    exact ⟨rfl, rfl, fun _ => rfl⟩
  | succ fuel ih =>
    by_cases hout : file.length ≤ o ∨ caps.cuts (o + 1)
    · rw [loadWindows, if_pos hout, parseFrom_done]
      · exact ⟨rfl, rfl, fun _ => rfl⟩
      · refine hout.imp id fun hcut => ?_
        unfold parseStep
        rw [if_pos (by rwa [Nat.zero_add])]
    · rw [not_or, Nat.not_le] at hout
      obtain ⟨hlt, hcut⟩ := hout
      have hn : o + min m.windowSize (file.length - o) ≤ file.length := by omega
      have hpos : 0 < min m.windowSize (file.length - o) := by omega
      cases hr : parseLoop L caps (fieldAt file o (min m.windowSize (file.length - o))) o
        (fieldAt file o (min m.windowSize (file.length - o))).length 0 out mx with
      | mk status consumed out' mx' =>
      obtain ⟨-, herr, hok⟩ := parseLoop_window hn hr
      simp only [Nat.add_zero] at herr hok
      obtain ⟨m', hm', hsize', heq⟩ := loadWindows_succ fuel hm (by omega) hlt hcut rfl
      rw [heq]
      unfold parseRecordsIncremental
      simp only [hr]
      cases status with
      | error e =>
        rw [herr e rfl]
        exact ⟨rfl, rfl, (by rintro ⟨⟩)⟩
      | ok u =>
        simp only
        rw [hok u rfl]
        split
        · rename_i h0
          obtain rfl : consumed = 0 := h0
          -- nothing was consumed: the window ends where the file does, and so does the load
          obtain ⟨rfl, rfl, hstop⟩ := parseLoop_none hn hpos hr
          have hshort := (parseStep_stop hstop).resolve_left hcut
          have hlen := length_fieldAt hn
          have hend : o + min m.windowSize (file.length - o) = file.length := by omega
          have hfile : parseStep L caps file 0 (o + 0) out' mx' = _ :=
            parseStep_window hn (.inr hend)
          rw [hstop] at hfile
          rw [parseFrom_done (.inr hfile), hend, loadWindows_end (Nat.le_refl _)]
          exact ⟨rfl, rfl, fun _ => rfl⟩
        · exact ih hm' (hsize' ▸ hsize) (by omega)

end

/-- A load of the whole file is its loop from the start, but for the largest LSN of a load that
fails. -/
theorem loadRecordsWhole_eq (L : LzmaLib) (caps : LoadCaps) (file : Bytes) (out : LoadedMap)
    (mx : Nat) : (loadRecordsWhole L caps file out mx).status =
      (parseFrom L caps file 0 out mx).status ∧
    (loadRecordsWhole L caps file out mx).out = (parseFrom L caps file 0 out mx).out ∧
    (loadRecordsWhole L caps file out mx).maxLsn =
      match (parseFrom L caps file 0 out mx).status with
      | .ok _ => (parseFrom L caps file 0 out mx).maxLsn
      | .error _ => mx := by
  unfold loadRecordsWhole parseRecordsIncremental parseFrom
  simp only [Nat.sub_zero]
  cases hs : (parseLoop L caps file 0 file.length 0 out mx).status with
  | ok u => exact ⟨hs, rfl, rfl⟩
  | error e => exact ⟨rfl, rfl, rfl⟩

/-- **A load by windows and a load of the whole file agree** in their status and their map, and in
the largest LSN if they succeed. -/
theorem loadDatafileMmap_agrees (L : LzmaLib) (caps : LoadCaps) (file : Bytes) {windowSize : Nat}
    (hsize : 131090 ≤ windowSize) {out : LoadedMap} {mx : Nat}
    (hempty : file = [] → out = SortedMap.empty ∧ mx = 0) :
    (loadDatafileMmap L caps file windowSize out mx).Agrees
      (loadRecordsWhole L caps file out mx) := by
  unfold loadDatafileMmap
  split
  · rename_i h
    obtain ⟨rfl, rfl⟩ := hempty h
    subst h
    exact ⟨rfl, rfl, fun _ => rfl⟩
  · obtain ⟨hs, ho, hm⟩ : (loadWindows L caps file file.length
        (.openReadOnly windowSize file) 0 out mx).Agrees (parseFrom L caps file 0 out mx) :=
      loadWindows_agrees (openReadOnly_mapped windowSize) hsize (Nat.sub_le _ 0)
    obtain ⟨hs', ho', hm'⟩ := loadRecordsWhole_eq L caps file out mx
    refine ⟨hs.trans hs'.symm, ho.trans ho'.symm, fun hok => ?_⟩
    rw [hm hok, hm', ← hs, hok]

/-- A library that neither compresses nor decompresses. -/
def noLzma : LzmaLib := ⟨fun _ _ _ _ _ _ _ _ _ => none, fun _ _ _ => none⟩

/-- A record, loaded with the smallest window that is allowed. -/
theorem loadDatafileMmap_agrees_record :
    (loadDatafileMmap noLzma ⟨0, 0, 0xFF⟩ (DataRecord.mk 7 [97] [98] false).encode 131090
      SortedMap.empty 0).Agrees
    (loadRecordsWhole noLzma ⟨0, 0, 0xFF⟩ (DataRecord.mk 7 [97] [98] false).encode
      SortedMap.empty 0) :=
  loadDatafileMmap_agrees _ _ _ (Nat.le_refl _) fun _ => ⟨rfl, rfl⟩

/-! ## Loads that fail -/

section
variable {L : LzmaLib} {caps : LoadCaps}

/-- A round on a record that was appended to the file, where there is no limit. -/
theorem parseStep_encode (hlsn : caps.lsnCap = 0) (hgen : caps.reclaimGeneration = 0xFF)
    (pre rest : Bytes) {r : DataRecord} (hr : r.InRange) (hlive : r.deleted = false) {base : Nat}
    (hcut : ¬ caps.cuts (base + pre.length + r.size)) (out : LoadedMap) (mx : Nat) :
    parseStep L caps (pre ++ (r.encode ++ rest)) base pre.length out mx =
      .next (pre.length + r.size) (out.insert r.key (r.value, r.lsn)) (max mx r.lsn) := by
  obtain ⟨hhdr, hkey, hval⟩ := DataFile.readAt?_encode pre rest r
  have hkl : r.header.keyLen = r.key.length := rfl
  have hvl : r.header.valueLen = r.value.length := rfl
  have hnot : ∀ k, k ≤ r.size → ¬ caps.cuts (base + (pre.length + k)) := by
    rintro k hk ⟨hpos, hlt⟩
    exact hcut ⟨hpos, by omega⟩
  have hsize : pre.length + kDataHeaderSize + r.key.length + r.value.length =
      pre.length + r.size := by
    simp only [DataRecord.size, Nat.add_assoc]
  have hin : pre.length + r.size ≤ (pre ++ (r.encode ++ rest)).length := by
    simp only [List.length_append, DataRecord.length_encode]
    omega
  have hcodec : wireCodec (recordCodec r.header.encode) = none := by
    rw [← DataRecordHeader.encodeIn_zero, DataRecordHeader.recordCodec_encodeIn]
    rfl
  have hkey' : fieldAt (pre ++ (r.encode ++ rest)) (pre.length + kDataHeaderSize) r.key.length =
      r.key := (readAt?_some hkey).2.1.symm
  have hval' : fieldAt (pre ++ (r.encode ++ rest))
      (pre.length + kDataHeaderSize + r.key.length) r.value.length = r.value :=
    (readAt?_some hval).2.1.symm
  have hlsn' : r.header.lsn = r.lsn := rfl
  have hdel : r.header.deleted = r.deleted := rfl
  have h1 : ¬ caps.cuts (base + pre.length + 1) := by
    have := hnot 1 r.size_pos
    rwa [← Nat.add_assoc] at this
  have h2 : ¬ caps.cuts (base + (pre.length + kDataHeaderSize)) :=
    hnot _ (by simp only [DataRecord.size]; omega)
  unfold parseStep
  rw [if_neg h1, hhdr]
  simp only [hr.decode_header, hkl, hvl, hsize]
  rw [if_neg h2, if_neg (by omega), DataRecordHeader.verifyCrc_encode, if_neg (by simp),
    if_neg (hnot _ (Nat.le_refl _)), if_neg (by omega), if_neg (by simp [hgen, generationVisible]),
    hkey', hval', decodeRecordValue, hcodec]
  simp only [hdel, hlive, hlsn', Bool.false_eq_true, if_false]

/-- A round on a record whose header the limit cuts. -/
theorem parseStep_cut (pre rest : Bytes) (r : DataRecord) {base : Nat}
    (hlt : ¬ caps.cuts (base + pre.length + 1))
    (hcut : caps.cuts (base + (pre.length + kDataHeaderSize))) (out : LoadedMap) (mx : Nat) :
    parseStep L caps (pre ++ (r.encode ++ rest)) base pre.length out mx =
      .fail (.corruptPage "datafile truncated mid-record") := by
  unfold parseStep
  rw [if_neg hlt, (DataFile.readAt?_encode pre rest r).1]
  simp only
  rw [if_pos hcut]

/-- A record that fills a window, and a limit in the header of the next: the load by windows has
kept the largest LSN of its first window. -/
theorem loadDatafileMmap_cut (hlsn : caps.lsnCap = 0) (hgen : caps.reclaimGeneration = 0xFF)
    {long : DataRecord} (small : DataRecord) (hlong : long.InRange) (hlive : long.deleted = false)
    (hfills : long.size = kMaxRecordSize) (hsmall : small.size ≤ kMaxRecordSize) (hcap : caps.byteCap = kMaxRecordSize + 1) :
    (loadDatafileMmap L caps (long.encode ++ small.encode) kMaxRecordSize SortedMap.empty 0).maxLsn
        = long.lsn ∧
      (loadRecordsWhole L caps (long.encode ++ small.encode) SortedMap.empty 0).maxLsn = 0 := by
  have hbelow : ∀ n, n ≤ kMaxRecordSize + 1 → ¬ caps.cuts n := fun n hn hc => by
    have := hc.2
    omega
  have hsize : long.encode.length = kMaxRecordSize := by rw [DataRecord.length_encode, hfills]
  have hlen : (long.encode ++ small.encode).length = kMaxRecordSize + small.size := by
    rw [List.length_append, hsize, DataRecord.length_encode]
  have hpos := small.size_pos
  have hmax : kMaxRecordSize = 131090 := rfl
  -- a round on the first record, whatever follows it
  have hfirst : ∀ rest, parseStep L caps (long.encode ++ rest) 0 0 SortedMap.empty 0 =
      .next kMaxRecordSize (SortedMap.empty.insert long.key (long.value, long.lsn)) long.lsn := by
    intro rest
    have hnot : ¬ caps.cuts (0 + ([] : Bytes).length + long.size) := hbelow _ (by simp [hfills])
    have := parseStep_encode (L := L) hlsn hgen [] rest hlong hlive hnot SortedMap.empty 0
    simpa [hfills] using this
  have hcut : caps.cuts (kMaxRecordSize + kDataHeaderSize) :=
    ⟨by omega, by rw [hcap]; exact Nat.add_lt_add_left (by decide) _⟩
  have hfile : (long.encode ++ small.encode) ≠ [] := by
    intro h0
    rw [h0, List.length_nil] at hlen
    omega
  constructor
  · have hone : parseRecordsIncremental L caps
        (fieldAt (long.encode ++ small.encode) 0 (min kMaxRecordSize
          ((long.encode ++ small.encode).length - 0))) 0 SortedMap.empty 0 =
        ⟨.ok (), kMaxRecordSize, SortedMap.empty.insert long.key (long.value, long.lsn),
          long.lsn⟩ := by
      rw [Nat.min_eq_left (by omega), fieldAt_here hsize]
      have := hfirst []
      rw [List.append_nil] at this
      obtain ⟨d, hd⟩ : ∃ d, long.encode.length = d + 1 := ⟨long.encode.length - 1, by omega⟩
      rw [parseRecordsIncremental, hd, parseLoop, if_neg (by omega), this]
      simp only
      rw [parseLoop_end (by omega)]
    -- the second window holds the second record alone
    have htwo : ∀ out mx, parseRecordsIncremental L caps
        (fieldAt (long.encode ++ small.encode) kMaxRecordSize (min kMaxRecordSize
          ((long.encode ++ small.encode).length - kMaxRecordSize))) kMaxRecordSize out mx =
        ⟨.error (.corruptPage "datafile truncated mid-record"), 0, out, mx⟩ := by
      intro out mx
      have hview : fieldAt (long.encode ++ small.encode) kMaxRecordSize (min kMaxRecordSize
          ((long.encode ++ small.encode).length - kMaxRecordSize)) = small.encode := by
        rw [fieldAt_skip (by omega), hsize, Nat.sub_self, fieldAt, List.drop_zero,
          List.take_of_length_le (by rw [DataRecord.length_encode]; omega)]
      have hlt : ¬ caps.cuts (kMaxRecordSize + ([] : Bytes).length + 1) := hbelow _ (by simp)
      have hstep := parseStep_cut (L := L) [] [] small hlt (by simpa using hcut) out mx
      rw [List.nil_append, List.append_nil, List.length_nil] at hstep
      obtain ⟨d, hd⟩ : ∃ d, small.encode.length = d + 1 :=
        ⟨small.encode.length - 1, by rw [DataRecord.length_encode]; omega⟩
      rw [hview, parseRecordsIncremental, hd, parseLoop, if_neg (by omega), hstep]
    obtain ⟨d, hd⟩ : ∃ d, (long.encode ++ small.encode).length = d + 1 + 1 :=
      ⟨(long.encode ++ small.encode).length - 2, by omega⟩
    have hwindow : 0 < kMaxRecordSize := by decide
    obtain ⟨m, hm, hm', heq⟩ := loadWindows_succ (d + 1) (openReadOnly_mapped kMaxRecordSize)
      hwindow (by omega) (hbelow _ (by omega)) hone
    have hm'' : m.windowSize = kMaxRecordSize := hm'
    have htwo' := htwo (SortedMap.empty.insert long.key (long.value, long.lsn)) long.lsn
    rw [← hm''] at htwo'
    obtain ⟨m', -, -, heq'⟩ := loadWindows_succ d hm (hm'' ▸ hwindow) (by omega)
      (hbelow _ (by omega)) htwo'
    rw [loadDatafileMmap, if_neg hfile, hd, heq]
    simp only
    rw [if_neg (by decide), Nat.zero_add, ← hm'', heq']
  · have hsecond : ∀ out mx, parseStep L caps (long.encode ++ small.encode) 0 kMaxRecordSize out mx
        = .fail (.corruptPage "datafile truncated mid-record") := by
      intro out mx
      have hlt : ¬ caps.cuts (0 + long.encode.length + 1) :=
        hbelow _ (by rw [hsize, Nat.zero_add])
      have := parseStep_cut (L := L) long.encode [] small hlt
        (by rw [hsize, Nat.zero_add]; exact hcut) out mx
      simpa [hsize] using this
    rw [(loadRecordsWhole_eq _ _ _ _ _).2.2, parseFrom_next (by omega) (hfirst _),
      parseFrom_fail (by omega) (hsecond _ _)]

end

/-- **A load that fails in its second window** has kept the largest LSN of its first. -/
theorem loadDatafileMmap_failed : ¬ ∀ L caps file windowSize, 131090 ≤ windowSize →
    (loadDatafileMmap L caps file windowSize SortedMap.empty 0).out =
      (loadRecordsWhole L caps file SortedMap.empty 0).out ∧
    (loadDatafileMmap L caps file windowSize SortedMap.empty 0).maxLsn =
      (loadRecordsWhole L caps file SortedMap.empty 0).maxLsn := by
  intro h
  have hsize : (DataRecord.mk 1 (List.replicate 65535 0) (List.replicate 65535 0) false).size =
      kMaxRecordSize := by
    simp only [DataRecord.size, kDataHeaderSize, List.length_replicate, kMaxRecordSize]
  have hin : (DataRecord.mk 1 (List.replicate 65535 0) (List.replicate 65535 0) false).InRange :=
    ⟨by decide, (List.length_replicate).le, (List.length_replicate).le⟩
  obtain ⟨h1, h0⟩ := @loadDatafileMmap_cut noLzma ⟨0, 131091, 0xFF⟩ rfl rfl _
    (DataRecord.mk 2 [] [] false) hin rfl hsize (by decide) rfl
  have heq := (h noLzma ⟨0, 131091, 0xFF⟩
    ((DataRecord.mk 1 (List.replicate 65535 0) (List.replicate 65535 0) false).encode ++
      (DataRecord.mk 2 [] [] false).encode) kMaxRecordSize (Nat.le_refl _)).2
  exact absurd (h1.symm.trans (heq.trans h0)) (by decide)

end EBTree.Engine
