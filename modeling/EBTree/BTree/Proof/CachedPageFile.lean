import EBTree.BTree.CachedPageFile
import EBTree.Codec.Proof.RoundTrip

/-!
# Reads through the page cache

* `StoredAt L s o p`: the page `p` is stored at `o`, among the pages of the file.
* `readStoredPage_stored`: it is what a read of the file gives, `appendPages_keeps` and
  `appendPages_stored`: appending keeps it, and stores the new pages.
* `readRuns_spec`: what the second loop of `ReadPages` does, pages in a run or alone.
* `readPages_spec`, `readPage_miss`: what the calls do to the cache, and what they give.
-/

set_option autoImplicit false

namespace EBTree.BTree.CachedPageFile

open Lib Codec

variable {L : LzmaLib} {s : CachedPageFile} {o : Nat} {p q : Bytes}

/-! ## Stored pages -/

/-- The page is stored at `o`: its bytes lie between the file's header and the next offset. -/
inductive StoredAt (L : LzmaLib) (s : CachedPageFile) (o : Nat) (p : Bytes) : Prop
  | raw (f : Bytes) (hw : s.wrapped = false) (hf : s.file = some f)
      (hlo : kPageFileHeaderSize ≤ o) (hhi : o + kPageSize ≤ s.nextOffset)
      (hread : readAt? f o kPageSize = some p)
  | wrapped (f : Bytes) (codec : UInt8) (payload : Bytes) (hw : s.wrapped = true)
      (hf : s.file = some f) (hlo : kPageFileHeaderSize ≤ o)
      (hsize : kStoredPageHeaderSize + payload.length < 2 ^ 32)
      (hhi : o + kStoredPageHeaderSize + payload.length ≤ s.nextOffset)
      (hhdr : readAt? f o kStoredPageHeaderSize =
        some (le 4 (kStoredPageHeaderSize + payload.length) ++ [codec]))
      (hpay : readAt? f (o + kStoredPageHeaderSize) payload.length = some payload)
      (hdec : decodePayload L codec payload = .ok p)

/-- All that a read of the file depends on. -/
structure SameFile (s s' : CachedPageFile) : Prop where
  file : s'.file = s.file
  wrapped : s'.wrapped = s.wrapped
  nextOffset : s'.nextOffset = s.nextOffset

theorem StoredAt.congr {s' : CachedPageFile} (h : StoredAt L s o p) (hs : SameFile s s') :
    StoredAt L s' o p := by
  cases h with
  | raw f hw hf hlo hhi hread =>
    exact .raw f (hs.wrapped.trans hw) (hs.file.trans hf) hlo (hs.nextOffset ▸ hhi) hread
  | wrapped f codec payload hw hf hlo hsize hhi hhdr hpay hdec =>
    exact .wrapped f codec payload (hs.wrapped.trans hw) (hs.file.trans hf) hlo hsize
      (hs.nextOffset ▸ hhi) hhdr hpay hdec

/-- **A stored page is what a read of the file gives.** -/
theorem readStoredPage_stored (h : StoredAt L s o p) (hfine : s.readFailed = false) :
    s.readStoredPage L o = (s, .ok p) := by
  cases h with
  | raw f hw hf hlo hhi hread =>
    simp [readStoredPage, hf, hw, readStream, hfine, hread]
  | wrapped f codec payload hw hf hlo hsize hhi hhdr hpay hdec =>
    have htake : (le 4 (kStoredPageHeaderSize + payload.length) ++ [codec]).take 4 =
        le 4 (kStoredPageHeaderSize + payload.length) := List.take_left' (length_le _ _)
    have htotal : leNat (le 4 (kStoredPageHeaderSize + payload.length)) =
        kStoredPageHeaderSize + payload.length := by
      rw [leNat_le]
      exact Nat.mod_eq_of_lt hsize
    have hcodec : (le 4 (kStoredPageHeaderSize + payload.length) ++ [codec]).getD 4 0 = codec := by
      rw [List.getD_append_right _ _ _ _ (by simp)]
      simp
    simp only [readStoredPage, hf, hw, if_true, readStream, hfine, Bool.false_eq_true, if_false,
      hhdr, htake, htotal, hcodec, Nat.not_lt.2 (Nat.le_add_right _ _), Nat.add_sub_cancel_left,
      hpay, hdec]

/-- One page at most is stored at an offset. -/
theorem StoredAt.unique (h : StoredAt L s o p) (h' : StoredAt L s o q) : p = q := by
  have hs : SameFile s { s with readFailed := false } := ⟨rfl, rfl, rfl⟩
  have hp := readStoredPage_stored (h.congr hs) rfl
  rw [readStoredPage_stored (h'.congr hs) rfl] at hp
  injection hp with _ hp
  injection hp with hp
  exact hp.symm

/-! ## Writing -/

/-- What the library made of a page is decoded to it. -/
theorem decodePayload_packed {page dest props : Bytes} (hp : page.length = kPageSize)
    (hprops : props.length = kLzmaPropsSize)
    (hun : L.lzmaUncompress dest props page.length = some page) :
    decodePayload L kPageCodecLzma (packLzmaPayload dest (u32 page.length) props) = .ok page := by
  have hu : u32 page.length = kPageSize := by
    rw [hp]
    rfl
  have htake : (packLzmaPayload dest kPageSize props).take 4 = le 4 kPageSize :=
    List.take_left' (length_le _ _)
  have hdrop : (packLzmaPayload dest kPageSize props).drop 4 = props ++ dest :=
    List.drop_left' (length_le _ _)
  have hsrc : (packLzmaPayload dest kPageSize props).drop (4 + kLzmaPropsSize) = dest := by
    rw [← List.drop_drop, hdrop]
    exact List.drop_left' hprops
  have hlen : (packLzmaPayload dest kPageSize props).length =
      4 + (kLzmaPropsSize + dest.length) := by
    simp [packLzmaPayload, hprops]
  have hsz : leNat (le 4 kPageSize) = kPageSize := by decide
  rw [hp] at hun
  rw [hu, decodePayload, if_neg (by decide), if_pos rfl, if_neg (by omega), htake, hsz,
    if_neg (not_not.2 rfl), lzmaDecompressPayload, if_neg (by omega), htake, hsz,
    if_neg (not_not.2 rfl)]
  simp only [hdrop, hsrc, List.take_left' hprops, hun, hp, ne_eq, not_true, if_false]

/-- The stored form of a page decodes to it. -/
theorem decodePayload_encodePage (hL : L.Lossless) (compressPages : Bool) {page : Bytes}
    (hp : page.length = kPageSize) :
    decodePayload L (encodePage L compressPages page).1 (encodePage L compressPages page).2 =
        .ok page ∧
      (encodePage L compressPages page).2.length ≤ kPageSize := by
  have hraw : decodePayload L kPageCodecRaw page = .ok page := by
    rw [decodePayload, if_pos rfl, if_neg (not_not.2 hp)]
  unfold encodePage
  split
  · cases hc : lzmaCompressPreset L .kPageBlock page with
    | error e => exact ⟨hraw, hp.le⟩
    | ok lz =>
      simp only
      split
      · rename_i hlz
        refine ⟨?_, hp ▸ hlz.2.le⟩
        unfold lzmaCompressPreset at hc
        have hne : page ≠ [] := by
          rintro rfl
          cases hp
        simp only [hne, if_false, getPresetParams] at hc
        cases hlib : L.lzmaCompress page (page.length + page.length / 3 + 128) 5 (2 ^ 20) 3 0 2 32 1
          with
        | none =>
          rw [hlib] at hc
          cases hc
        | some r =>
          obtain ⟨dest, props⟩ := r
          obtain ⟨hprops, hun⟩ := hL _ _ _ _ _ _ _ _ _ _ _ hlib
          simp only [hlib] at hc
          split at hc
          · injection hc with hc
            rw [← hc] at hlz
            cases hlz.1
          · injection hc with hc
            rw [← hc]
            exact decodePayload_packed hp hprops hun
      · exact ⟨hraw, hp.le⟩
  · exact ⟨hraw, hp.le⟩

/-- What a page takes in the file. -/
theorem storedBytes_wrapped (compressPages : Bool) (page : Bytes) :
    storedBytes L compressPages true page =
      (le 4 (kStoredPageHeaderSize + (encodePage L compressPages page).2.length) ++
          [(encodePage L compressPages page).1]) ++ (encodePage L compressPages page).2 := by
  simp [storedBytes]

/-- The state of a page file at rest: its pages lie behind the header, and compression goes with
the wrapped format. -/
structure Format (s : CachedPageFile) : Prop where
  header_le : kPageFileHeaderSize ≤ s.nextOffset
  wrapped : s.compressPages = true → s.wrapped = true

theorem Format.or (h : Format s) : (s.wrapped || s.compressPages) = s.wrapped := by
  cases hc : s.compressPages with
  | false => exact Bool.or_false _
  | true =>
    rw [h.wrapped hc]
    rfl

/-- The data that `AppendPages` writes. -/
def appended (L : LzmaLib) (s : CachedPageFile) (pages : List Bytes) : Bytes :=
  (pages.map (storedBytes L s.compressPages s.wrapped)).flatten

theorem appendPages_eq (h : Format s) {pages : List Bytes} (hp : pages ≠ []) :
    (s.appendPages L pages).1 =
      { s with
        file := some (overwrite (overwrite (s.file.getD newFile) s.nextOffset (s.appended L pages))
          0 (fileHeader (s.nextOffset + (s.appended L pages).length) s.wrapped))
        nextOffset := s.nextOffset + (s.appended L pages).length } := by
  rw [appendPages, if_neg (by simpa using hp), h.or]
  rfl

/-- What lies between the header and the next offset is as it was after a write there. -/
theorem readAt?_appended {f hdr data bs : Bytes} {n next : Nat} (hlo : kPageFileHeaderSize ≤ o)
    (hhi : o + n ≤ next) (hhdr : hdr.length = 24) (h : readAt? f o n = some bs) :
    readAt? (overwrite (overwrite f next data) 0 hdr) o n = some bs := by
  refine readAt?_overwrite_of_ge (readAt?_overwrite_of_le h hhi) ?_
  have hk : kPageFileHeaderSize = 4096 := rfl
  omega

/-- **Appending keeps the pages that are stored.** -/
theorem appendPages_keeps (hs : Format s) (h : StoredAt L s o p) (pages : List Bytes) :
    StoredAt L (s.appendPages L pages).1 o p := by
  by_cases hp : pages = []
  · rw [appendPages, if_pos (by simp [hp])]
    exact h
  · rw [appendPages_eq hs hp]
    cases h with
    | raw f hw hf hlo hhi hread =>
      refine .raw _ hw rfl hlo (Nat.le_trans hhi (Nat.le_add_right _ _)) ?_
      rw [hf]
      exact readAt?_appended hlo hhi (length_fileHeader _ _) hread
    | wrapped f codec payload hw hf hlo hsize hhi hhdr hpay hdec =>
      refine .wrapped _ codec payload hw rfl hlo hsize (Nat.le_trans hhi (Nat.le_add_right _ _))
        ?_ ?_ hdec
      · rw [hf]
        exact readAt?_appended hlo (by omega) (length_fileHeader _ _) hhdr
      · rw [hf]
        exact readAt?_appended (by omega) hhi (length_fileHeader _ _) hpay

/-- **The pages appended are stored**, each behind the ones before it. -/
theorem appendPages_stored (hL : L.Lossless) (hs : Format s) {pages front back : List Bytes}
    {page : Bytes} (hsplit : pages = front ++ page :: back) (hp : page.length = kPageSize) :
    StoredAt L (s.appendPages L pages).1 (s.nextOffset + (s.appended L front).length) page := by
  have hdata : s.appended L pages = s.appended L front ++
      (storedBytes L s.compressPages s.wrapped page ++ s.appended L back) := by
    simp [appended, hsplit]
  have hlen := congrArg List.length hdata
  rw [List.length_append, List.length_append] at hlen
  have hlo := hs.header_le
  have hk : kPageFileHeaderSize = 4096 := rfl
  have hread : ∀ (mid pre post : Bytes), storedBytes L s.compressPages s.wrapped page =
      pre ++ (mid ++ post) →
      readAt? (overwrite (overwrite (s.file.getD newFile) s.nextOffset (s.appended L pages)) 0
        (fileHeader (s.nextOffset + (s.appended L pages).length) s.wrapped))
        (s.nextOffset + (s.appended L front).length + pre.length) mid.length = some mid := by
    intro mid pre post hmid
    refine readAt?_overwrite_of_ge (readAt?_overwrite_part (s.appended L front ++ pre)
      (post ++ s.appended L back) ?_ ?_ rfl) ?_
    · rw [hdata, hmid]
      simp only [List.append_assoc]
    · rw [List.length_append]
      omega
    · rw [length_fileHeader]
      omega
  rw [appendPages_eq hs (by simp [hsplit])]
  cases hw : s.wrapped with
  | false =>
    have hstored : storedBytes L s.compressPages s.wrapped page = page := by
      rw [storedBytes, hw]
      rfl
    refine .raw _ rfl rfl (Nat.le_trans hlo (Nat.le_add_right _ _)) ?_ ?_
    · simp only
      rw [hlen, hstored, hp]
      omega
    · have h := hread page [] [] (by rw [hstored]; simp)
      rw [hw, hp] at h
      exact h
  | true =>
    obtain ⟨hdec, hsize⟩ := decodePayload_encodePage hL s.compressPages hp
    have hstored := storedBytes_wrapped (L := L) s.compressPages page
    rw [← hw] at hstored
    have hslen := congrArg List.length hstored
    simp only [List.length_append, length_le, List.length_singleton] at hslen
    have hks : kStoredPageHeaderSize = 5 := rfl
    have hkp : kPageSize = 4096 := rfl
    refine .wrapped _ (encodePage L s.compressPages page).1 (encodePage L s.compressPages page).2 rfl
      rfl (Nat.le_trans hlo (Nat.le_add_right _ _)) (by omega) ?_ ?_ ?_ hdec
    · simp only
      omega
    · have h := hread (le 4 (kStoredPageHeaderSize + (encodePage L s.compressPages page).2.length) ++
        [(encodePage L s.compressPages page).1]) [] (encodePage L s.compressPages page).2 hstored
      rw [hw] at h
      simpa [kStoredPageHeaderSize] using h
    · have h := hread (encodePage L s.compressPages page).2
        (le 4 (kStoredPageHeaderSize + (encodePage L s.compressPages page).2.length) ++
          [(encodePage L s.compressPages page).1]) [] (by rw [hstored, List.append_nil])
      rw [hw] at h
      simpa [kStoredPageHeaderSize] using h

/-! ## Reads within the pages -/

/-- Where the bytes end that a read at `o` asks for. -/
def readEnd (s : CachedPageFile) (f : Bytes) (o : Nat) : Nat :=
  if s.wrapped then
    match readAt? f o kStoredPageHeaderSize with
    | none => o + kStoredPageHeaderSize
    | some hdr => o + max kStoredPageHeaderSize (leNat (hdr.take 4))
  else o + kPageSize

/-- A read at `o` ends within the pages of the file. -/
def Fits (s : CachedPageFile) (o : Nat) : Prop :=
  ∀ f, s.file = some f → s.readEnd f o ≤ f.length ∧ s.readEnd f o ≤ s.nextOffset

theorem StoredAt.fits (h : StoredAt L s o p) : s.Fits o := by
  intro g hg
  cases h with
  | raw f hw hf hlo hhi hread =>
    rw [hf] at hg
    injection hg with hg
    subst hg
    rw [readEnd, hw]
    exact ⟨(readAt?_some hread).1, hhi⟩
  | wrapped f codec payload hw hf hlo hsize hhi hhdr hpay hdec =>
    rw [hf] at hg
    injection hg with hg
    subst hg
    have htake : (le 4 (kStoredPageHeaderSize + payload.length) ++ [codec]).take 4 =
        le 4 (kStoredPageHeaderSize + payload.length) := List.take_left' (length_le _ _)
    have hend : s.readEnd f o = o + kStoredPageHeaderSize + payload.length := by
      rw [readEnd, if_pos hw, hhdr]
      simp only [htake, leNat_le]
      omega
    rw [hend]
    exact ⟨(readAt?_some hpay).1, hhi⟩

/-- **A read within the pages** leaves the stream as it was, and what it gives is stored there. -/
theorem readStoredPage_fits (hfine : s.readFailed = false) (hfit : s.Fits o) :
    (s.readStoredPage L o).1 = s ∧
      ∀ p, (s.readStoredPage L o).2 = .ok p → kPageFileHeaderSize ≤ o → StoredAt L s o p := by
  cases hf : s.file with
  | none => simp [readStoredPage, hf]
  | some f =>
    obtain ⟨hlen, hhi⟩ := hfit f hf
    cases hw : s.wrapped with
    | false =>
      rw [readEnd, hw] at hlen hhi
      cases hread : readAt? f o kPageSize with
      | none =>
        rw [readAt?_eq_none_iff] at hread
        simp only [Bool.false_eq_true, if_false] at hlen
        omega
      | some page =>
        have h : s.readStoredPage L o = (s, .ok page) := by
          simp [readStoredPage, hf, hw, readStream, hfine, hread]
        rw [h]
        refine ⟨rfl, fun p hp hlo => ?_⟩
        injection hp with hp
        exact .raw f hw hf hlo hhi (hp ▸ hread)
    | true =>
      rw [readEnd, if_pos hw] at hlen hhi
      cases hhdr : readAt? f o kStoredPageHeaderSize with
      | none =>
        rw [readAt?_eq_none_iff] at hhdr
        rw [(readAt?_eq_none_iff).2 hhdr] at hlen
        simp only at hlen
        omega
      | some hdr =>
        rw [hhdr] at hlen hhi
        simp only at hlen hhi
        by_cases hsmall : leNat (hdr.take 4) < kStoredPageHeaderSize
        · have h : s.readStoredPage L o =
              (s, .error (.corruptPage "stored page size invalid")) := by
            simp [readStoredPage, hf, hw, readStream, hfine, hhdr, hsmall]
          rw [h]
          exact ⟨rfl, fun p hp => by cases hp⟩
        · cases hpay : readAt? f (o + kStoredPageHeaderSize)
            (leNat (hdr.take 4) - kStoredPageHeaderSize) with
          | none =>
            rw [readAt?_eq_none_iff] at hpay
            omega
          | some payload =>
            have h : s.readStoredPage L o = (s, decodePayload L (hdr.getD 4 0) payload) := by
              simp [readStoredPage, hf, hw, readStream, hfine, hhdr, hsmall, hpay]
            rw [h]
            refine ⟨rfl, fun p hp hlo => ?_⟩
            have hplen := (readAt?_some hpay).2.2
            have hhlen := (readAt?_some hhdr).2.2
            have htotal : kStoredPageHeaderSize + payload.length = leNat (hdr.take 4) := by omega
            have h4 : (hdr.take 4).length = 4 := by
              rw [List.length_take, hhlen]
              rfl
            have hlt := leNat_lt (hdr.take 4)
            rw [h4] at hlt
            have hdr_eq : hdr = le 4 (kStoredPageHeaderSize + payload.length) ++
                [hdr.getD 4 0] := by
              have hle := le_leNat (hdr.take 4)
              rw [h4] at hle
              rw [htotal, hle]
              have hk : kStoredPageHeaderSize = 5 := rfl
              have hsplit := List.take_append_drop 4 hdr
              rw [List.drop_eq_getElem_cons (by omega), List.drop_eq_nil_of_le (by omega)] at hsplit
              rw [List.getD_eq_getElem _ _ (by omega)]
              exact hsplit.symm
            refine .wrapped f (hdr.getD 4 0) payload hw hf hlo (by omega) (by omega) ?_ ?_ hp
            · rw [← hdr_eq]
              exact hhdr
            · rw [hplen]
              exact hpay

/-- A read of the file does not see the cache. -/
theorem readStoredPage_cache (c : LruCache Nat Bytes) :
    ({ s with cache := c } : CachedPageFile).readStoredPage L o =
      ({ (s.readStoredPage L o).1 with cache := c }, (s.readStoredPage L o).2) := by
  obtain ⟨file, next, compress, wrapped, readFailed, cache⟩ := s
  unfold readStoredPage readStream failed
  cases file with
  | none => rfl
  | some f =>
    cases wrapped with
    | false =>
      simp only [Bool.false_eq_true, if_false]
      cases (if readFailed then none else readAt? f o kPageSize) <;> rfl
    | true =>
      simp only [if_true]
      cases (if readFailed then none else readAt? f o kStoredPageHeaderSize) with
      | none => rfl
      | some hdr =>
        simp only
        split
        · rfl
        · cases (if readFailed then none else readAt? f (o + kStoredPageHeaderSize)
            (leNat (hdr.take 4) - kStoredPageHeaderSize)) <;> rfl

/-- The page that a read of the file gives. -/
def pageAt (L : LzmaLib) (s : CachedPageFile) (o : Nat) : Bytes :=
  (s.readStoredPage L o).2.toOption.getD []

theorem pageAt_of_ok (h : (s.readStoredPage L o).2 = .ok p) : s.pageAt L o = p := by
  rw [pageAt, h]
  rfl

/-! ## The loops of `ReadPages` -/

/-- The pages of a list put into their places, one by one. -/
def setAll (page : Nat → Bytes) (xs : List (Nat × Nat)) (out : List Bytes) : List Bytes :=
  xs.foldl (fun out x => out.set x.2 (page x.1)) out

/-- The offsets follow each other without a gap, from `o` on. -/
def Consecutive : Nat → List (Nat × Nat) → Prop
  | _, [] => True
  | o, x :: xs => x.1 = o ∧ Consecutive (o + kPageSize) xs

theorem splitRun_spec (prev : Nat) (xs : List (Nat × Nat)) :
    xs = (splitRun prev xs).1 ++ (splitRun prev xs).2 ∧
      Consecutive (prev + kPageSize) (splitRun prev xs).1 := by
  induction xs generalizing prev with
  | nil => exact ⟨rfl, trivial⟩
  | cons x xs ih =>
    rw [splitRun]
    split
    · rename_i h
      obtain ⟨hsplit, hcons⟩ := ih x.1
      exact ⟨congrArg (x :: ·) hsplit, h, h ▸ hcons⟩
    · exact ⟨rfl, trivial⟩

/-- A run ends where its last page does. -/
theorem Consecutive.end_le {n : Nat} {x : Nat × Nat} {xs : List (Nat × Nat)}
    (h : Consecutive o (x :: xs)) (hn : ∀ y ∈ x :: xs, y.1 + kPageSize ≤ n) :
    o + (x :: xs).length * kPageSize ≤ n := by
  induction xs generalizing o x with
  | nil =>
    have := hn x List.mem_cons_self
    rw [h.1] at this
    simpa using this
  | cons y ys ih =>
    have := ih h.2 fun z hz => hn z (List.mem_cons_of_mem _ hz)
    rw [List.length_cons, Nat.succ_mul]
    omega

theorem placeRun_spec {page : Nat → Bytes} {blob : Bytes} {runOffset i : Nat}
    {xs : List (Nat × Nat)} (s : CachedPageFile) (out : List Bytes)
    (h : Consecutive (runOffset + i * kPageSize) xs)
    (hp : ∀ j, i ≤ j → j < i + xs.length →
      fieldAt blob (j * kPageSize) kPageSize = page (runOffset + j * kPageSize)) :
    placeRun blob runOffset i xs s out =
      ({ s with cache := s.cache.insertAll page (xs.map (·.1)) }, setAll page xs out) := by
  induction xs generalizing i s out with
  | nil => rfl
  | cons x xs ih =>
    have hnext : Consecutive (runOffset + (i + 1) * kPageSize) xs := by
      rw [Nat.succ_mul, ← Nat.add_assoc]
      exact h.2
    rw [placeRun, ih _ _ hnext fun j hj hlt => hp j (by omega) (by rw [List.length_cons]; omega),
      hp i (Nat.le_refl _) (by rw [List.length_cons]; omega), ← h.1]
    rfl

/-- **A run of pages** is read as one blob that holds each of them. -/
theorem readRun_spec (hfine : s.readFailed = false) (hw : s.wrapped = false)
    (c : LruCache Nat Bytes) {x : Nat × Nat} {xs : List (Nat × Nat)} (out : List Bytes)
    (hrun : Consecutive x.1 (x :: xs)) (hfit : ∀ y ∈ x :: xs, s.Fits y.1)
    (hfile : s.file ≠ none) :
    (∀ y ∈ x :: xs, (s.readStoredPage L y.1).2 = .ok (s.pageAt L y.1)) ∧
      ({ s with cache := c } : CachedPageFile).readRun x.1 (x :: xs) out =
        ({ s with cache := c.insertAll (s.pageAt L) ((x :: xs).map (·.1)) },
          .ok (setAll (s.pageAt L) (x :: xs) out)) := by
  obtain ⟨f, hf⟩ := Option.ne_none_iff_exists'.1 hfile
  have hend : ∀ y ∈ x :: xs, y.1 + kPageSize ≤ f.length := by
    intro y hy
    have h := (hfit y hy f hf).1
    rw [readEnd, hw] at h
    exact h
  have hone : ∀ o, o + kPageSize ≤ f.length →
      (s.readStoredPage L o).2 = .ok ((f.drop o).take kPageSize) := by
    intro o ho
    simp [readStoredPage, hf, hw, readStream, hfine, readAt?, ho]
  refine ⟨fun y hy => ?_, ?_⟩
  · rw [pageAt_of_ok (hone y.1 (hend y hy))]
    exact hone y.1 (hend y hy)
  · have hlen := hrun.end_le hend
    have hread : readAt? f x.1 ((x :: xs).length * kPageSize) =
        some ((f.drop x.1).take ((x :: xs).length * kPageSize)) := if_pos hlen
    have hfields : ∀ j, 0 ≤ j → j < 0 + (x :: xs).length →
        fieldAt ((f.drop x.1).take ((x :: xs).length * kPageSize)) (j * kPageSize) kPageSize =
          s.pageAt L (x.1 + j * kPageSize) := by
      intro j _ hj
      have hle : (j + 1) * kPageSize ≤ (x :: xs).length * kPageSize :=
        Nat.mul_le_mul_right _ (by omega)
      rw [Nat.succ_mul] at hle
      rw [pageAt_of_ok (hone _ (by omega)), fieldAt, List.drop_take, List.drop_drop,
        List.take_take, Nat.min_eq_left (by omega)]
    have hplaced := placeRun_spec { s with cache := c } out (by simpa using hrun) hfields
    have hblob : ({ s with cache := c } : CachedPageFile).readRun x.1 (x :: xs) out =
        ((placeRun ((f.drop x.1).take ((x :: xs).length * kPageSize)) x.1 0 (x :: xs)
          { s with cache := c } out).1,
        .ok (placeRun ((f.drop x.1).take ((x :: xs).length * kPageSize)) x.1 0 (x :: xs)
          { s with cache := c } out).2) := by
      simp only [readRun, hf, readStream, hfine, Bool.false_eq_true, if_false, hread]
    rw [hblob, hplaced]

/-- **The second loop of `ReadPages`**: it puts pages into the cache, all of them where every read
succeeds. -/
theorem readRuns_spec (hfine : s.readFailed = false) {fuel : Nat} {xs : List (Nat × Nat)}
    (c : LruCache Nat Bytes) (out : List Bytes) (hfuel : xs.length ≤ fuel)
    (hfit : ∀ x ∈ xs, s.Fits x.1) :
    ∃ ys, ys <+: xs ∧ (∀ y ∈ ys, (s.readStoredPage L y.1).2 = .ok (s.pageAt L y.1)) ∧
      (readRuns L fuel xs { s with cache := c } out).1 =
        { s with cache := c.insertAll (s.pageAt L) (ys.map (·.1)) } ∧
      ((∀ x ∈ xs, (s.readStoredPage L x.1).2 = .ok (s.pageAt L x.1)) →
        (readRuns L fuel xs { s with cache := c } out).2 = .ok (setAll (s.pageAt L) xs out)) := by
  induction fuel generalizing xs c out with
  | zero =>
    rw [List.length_eq_zero_iff.1 (Nat.le_zero.1 hfuel)]
    exact ⟨[], List.prefix_rfl, by simp, rfl, fun _ => rfl⟩
  | succ fuel ih =>
    cases xs with
    | nil => exact ⟨[], List.prefix_rfl, by simp, rfl, fun _ => rfl⟩
    | cons x xs =>
      rw [readRuns]
      generalize hsp : (if s.wrapped then ([], xs) else splitRun x.1 xs) = split
      have hsplit : xs = split.1 ++ split.2 ∧ Consecutive (x.1 + kPageSize) split.1 ∧
          (split.1 ≠ [] → s.wrapped = false) := by
        cases hw : s.wrapped with
        | true =>
          rw [hw, if_pos rfl] at hsp
          rw [← hsp]
          exact ⟨rfl, trivial, fun h => absurd rfl h⟩
        | false =>
          rw [hw, if_neg (by decide)] at hsp
          rw [← hsp]
          exact ⟨(splitRun_spec _ _).1, (splitRun_spec _ _).2, fun _ => rfl⟩
      obtain ⟨happ, hcons, hraw⟩ := hsplit
      have hfuel' : split.2.length ≤ fuel := by
        have := congrArg List.length happ
        rw [List.length_append] at this
        rw [List.length_cons] at hfuel
        omega
      have hfit' : ∀ y ∈ split.2, s.Fits y.1 := fun y hy => hfit y
        (List.mem_cons_of_mem _ (happ ▸ List.mem_append_right _ hy))
      cases hone : split.1.isEmpty with
      | true =>
        rw [List.isEmpty_iff] at hone
        rw [hone, List.nil_append] at happ
        obtain ⟨hstate, -⟩ := readStoredPage_fits (L := L) hfine (hfit x List.mem_cons_self)
        simp only [if_true, readSingle, readStoredPage_cache, hstate]
        cases hr : (s.readStoredPage L x.1).2 with
        | error e =>
          refine ⟨[], List.nil_prefix, by simp, rfl, fun h => ?_⟩
          have := h x List.mem_cons_self
          rw [hr] at this
          cases this
        | ok p =>
          obtain ⟨ys, hys, hok, hst, hout⟩ := ih (c.insert x.1 p) (out.set x.2 p) hfuel' hfit'
          have hp := pageAt_of_ok hr
          refine ⟨x :: ys, ?_, ?_, ?_, fun h => ?_⟩
          · rw [happ]
            exact List.cons_prefix_cons.2 ⟨rfl, hys⟩
          · rintro y (_ | ⟨_, hy⟩)
            · rw [hp]
              exact hr
            · exact hok y hy
          · rw [List.map_cons, LruCache.insertAll, List.foldl_cons, hp]
            exact hst
          · rw [setAll, List.foldl_cons, hp, happ]
            exact hout fun y hy => h y (List.mem_cons_of_mem _ (happ ▸ hy))
      | false =>
        have hne : split.1 ≠ [] := by
          intro h
          rw [h] at hone
          cases hone
        have hfitrun : ∀ y ∈ x :: split.1, s.Fits y.1 := by
          rintro y (_ | ⟨_, hy⟩)
          · exact hfit x List.mem_cons_self
          · exact hfit y (List.mem_cons_of_mem _ (happ ▸ List.mem_append_left _ hy))
        by_cases hf : s.file = none
        · have hrun : ({ s with cache := c } : CachedPageFile).readRun x.1 (x :: split.1) out =
              ({ s with cache := c }, .error (.ioError "pagefile read open failed")) := by
            simp [readRun, hf]
          simp only [Bool.false_eq_true, if_false, hrun]
          refine ⟨[], List.nil_prefix, by simp, rfl, fun h => ?_⟩
          have := h x List.mem_cons_self
          simp [readStoredPage, hf] at this
        · obtain ⟨hokrun, hrun⟩ := readRun_spec (L := L) hfine (hraw hne) c out ⟨rfl, hcons⟩ hfitrun
            hf
          simp only [Bool.false_eq_true, if_false, hrun]
          obtain ⟨ys, hys, hok, hst, hout⟩ := ih
            (c.insertAll (s.pageAt L) ((x :: split.1).map (·.1)))
            (setAll (s.pageAt L) (x :: split.1) out) hfuel' hfit'
          refine ⟨(x :: split.1) ++ ys, ?_, ?_, ?_, fun h => ?_⟩
          · obtain ⟨t, ht⟩ := hys
            refine ⟨t, ?_⟩
            rw [happ, ← ht]
            simp
          · intro y hy
            rcases List.mem_append.1 hy with hy | hy
            · exact hokrun y hy
            · exact hok y hy
          · rw [List.map_append, LruCache.insertAll_append]
            exact hst
          · have hall : setAll (s.pageAt L) (x :: xs) out =
                setAll (s.pageAt L) split.2 (setAll (s.pageAt L) (x :: split.1) out) := by
              rw [setAll, setAll, setAll, ← List.foldl_append, List.cons_append, ← happ]
            rw [hall]
            exact hout fun y hy => h y
              (List.mem_cons_of_mem _ (happ ▸ List.mem_append_right _ hy))

/-! ## Calls -/

/-- A place of the list has its page when it had it before, or gets it. -/
theorem getElem?_setAll {page : Nat → Bytes} {offsets : List Nat} {xs : List (Nat × Nat)}
    {out : List Bytes} {i : Nat} (hlen : out.length = offsets.length)
    (hx : ∀ x ∈ xs, offsets[x.2]? = some x.1)
    (h : (∃ x ∈ xs, x.2 = i) ∨ out[i]? = (offsets.map page)[i]?) :
    (setAll page xs out)[i]? = (offsets.map page)[i]? := by
  induction xs generalizing out with
  | nil =>
    rcases h with ⟨x, hm, -⟩ | h
    · cases hm
    · exact h
  | cons x xs ih =>
    rw [setAll, List.foldl_cons]
    refine ih (List.length_set.trans hlen) (fun y hy => hx y (List.mem_cons_of_mem _ hy)) ?_
    by_cases hi : x.2 = i
    · right
      have hat := hx x List.mem_cons_self
      have hlt := (List.getElem?_eq_some_iff.1 hat).1
      rw [← hi, List.getElem?_set_self (by omega), List.getElem?_map, hat]
      rfl
    · rcases h with ⟨y, hy, hyi⟩ | h
      · rcases List.mem_cons.1 hy with rfl | hy
        · exact absurd hyi hi
        · exact .inl ⟨y, hy, hyi⟩
      · right
        rw [List.getElem?_set_ne hi]
        exact h

theorem mem_pendingOf {offsets : List Nat} {x : Nat × Nat} :
    x ∈ s.pendingOf offsets ↔ offsets[x.2]? = some x.1 ∧ s.cache.hit x.1 = false := by
  rw [pendingOf, List.mem_mergeSort, List.mem_filter, List.mem_zipIdx_iff_getElem?,
    Bool.not_eq_true']

theorem nodup_pendingOf {offsets : List Nat} (h : offsets.Nodup) :
    ((s.pendingOf offsets).map (·.1)).Nodup := by
  have hperm := ((offsets.zipIdx.filter fun x => !s.cache.hit x.1).mergeSort_perm
    fun a b => a.1 ≤ b.1).map (·.1)
  rw [pendingOf, hperm.nodup_iff]
  refine List.Nodup.sublist (List.filter_sublist.map _) ?_
  rw [List.zipIdx_map_fst]
  exact h

/-- Pages that are found in the cache are there. -/
theorem cachedAt_of_hit (hb : s.cache.Backed) (h : s.cache.hit o = true) :
    ∃ q, s.cache.pages.find? o = some q ∧ s.cachedAt o = .ok q := by
  rw [LruCache.hit, Bool.and_eq_true] at h
  obtain ⟨q, hq⟩ := Option.isSome_iff_exists.1 (hb o h.2)
  exact ⟨q, hq, by rw [cachedAt, hq]⟩

theorem mapM_hits (hb : s.cache.Backed) (offsets : List Nat) :
    (offsets.mapM fun offset => if s.cache.hit offset then s.cachedAt offset else .ok []) =
      .ok (offsets.map fun offset =>
        if s.cache.hit offset then (s.cache.pages.find? offset).getD [] else []) := by
  induction offsets with
  | nil => rfl
  | cons o os ih =>
    rw [List.mapM_cons, ih, List.map_cons]
    by_cases h : s.cache.hit o = true
    · obtain ⟨q, hq, hat⟩ := cachedAt_of_hit hb h
      rw [if_pos h, if_pos h, hat, hq]
      rfl
    · rw [if_neg h, if_neg h]
      rfl

/-- **`ReadPages`**: entries for some of the pages that are not in the cache, and all pages in the
order of the list where every read succeeds. -/
theorem readPages_spec (hfine : s.readFailed = false) (hb : s.cache.Backed) {offsets : List Nat}
    (hfit : ∀ o ∈ offsets, s.cache.hit o = true ∨ s.Fits o) :
    ∃ ks : List Nat, (∀ k ∈ ks, k ∈ offsets ∧ s.cache.hit k = false ∧
        (s.readStoredPage L k).2 = .ok (s.pageAt L k)) ∧
      (offsets.Nodup → ks.Nodup) ∧
      (s.readPages L offsets).1 =
        { s with cache := (s.cache.useAll offsets).insertAll (s.pageAt L) ks } ∧
      ∀ page : Nat → Bytes,
        (∀ o ∈ offsets, s.cache.hit o = true → s.cache.pages.find? o = some (page o)) →
        (∀ o ∈ offsets, s.cache.hit o = false → (s.readStoredPage L o).2 = .ok (page o)) →
        (s.readPages L offsets).2 = .ok (offsets.map page) := by
  have hfit' : ∀ x ∈ s.pendingOf offsets, s.Fits x.1 := by
    intro x hx
    obtain ⟨hat, hmiss⟩ := mem_pendingOf.1 hx
    rcases hfit x.1 (List.mem_of_getElem? hat) with h | h
    · rw [hmiss] at h
      cases h
    · exact h
  obtain ⟨ys, hys, hok, hst, hout⟩ := readRuns_spec (L := L) hfine (s.cache.useAll offsets)
    (offsets.map fun offset =>
      if s.cache.hit offset then (s.cache.pages.find? offset).getD [] else [])
    (Nat.le_refl _) hfit'
  have hmem : ∀ k ∈ ys.map (·.1), ∃ y ∈ ys, y ∈ s.pendingOf offsets ∧ y.1 = k := by
    intro k hk
    obtain ⟨y, hy, rfl⟩ := List.mem_map.1 hk
    exact ⟨y, hy, hys.subset hy, rfl⟩
  refine ⟨ys.map (·.1), fun k hk => ?_, fun hnd => ?_, ?_, fun page hhit hmiss => ?_⟩
  · obtain ⟨y, hy, hp, rfl⟩ := hmem k hk
    obtain ⟨hat, hmiss⟩ := mem_pendingOf.1 hp
    exact ⟨List.mem_of_getElem? hat, hmiss, hok y hy⟩
  · exact (nodup_pendingOf hnd).sublist (hys.sublist.map _)
  · rw [readPages, mapM_hits hb]
    exact hst
  · have hpage : ∀ x ∈ s.pendingOf offsets,
        (s.readStoredPage L x.1).2 = .ok (page x.1) ∧ s.pageAt L x.1 = page x.1 := by
      intro x hx
      obtain ⟨hat, hm⟩ := mem_pendingOf.1 hx
      have h := hmiss x.1 (List.mem_of_getElem? hat) hm
      exact ⟨h, pageAt_of_ok h⟩
    have hset : setAll (s.pageAt L) (s.pendingOf offsets) = setAll page (s.pendingOf offsets) := by
      funext out
      exact List.foldl_ext _ _ _ fun a x hx => by rw [(hpage x hx).2]
    rw [readPages, mapM_hits hb]
    refine (hout fun x hx => ?_).trans (congrArg Except.ok ?_)
    · rw [(hpage x hx).2]
      exact (hpage x hx).1
    · rw [hset]
      refine List.ext_getElem? fun i => getElem?_setAll (List.length_map _)
        (fun x hx => (mem_pendingOf.1 hx).1) ?_
      rw [List.getElem?_map, List.getElem?_map]
      cases hi : offsets[i]? with
      | none => exact .inr rfl
      | some o =>
        cases hh : s.cache.hit o with
        | true =>
          right
          simp only [Option.map_some, hh, if_true, hhit o (List.mem_of_getElem? hi) hh,
            Option.getD_some]
        | false => exact .inl ⟨(o, i), mem_pendingOf.2 ⟨hi, hh⟩, rfl⟩

/-- **`ReadPage`.** -/
theorem readPage_miss (hfine : s.readFailed = false) (hmiss : s.cache.hit o = false)
    (hfit : s.Fits o) :
    (∃ e, s.readPage L o = (s, .error e)) ∨
      (s.readStoredPage L o).2 = .ok (s.pageAt L o) ∧
        s.readPage L o = (s.cachePage o (s.pageAt L o), .ok (s.pageAt L o)) := by
  obtain ⟨hstate, -⟩ := readStoredPage_fits (L := L) hfine hfit
  have hr : s.readStoredPage L o = (s, (s.readStoredPage L o).2) := Prod.ext hstate rfl
  rw [readPage, if_neg (by rw [hmiss]; decide), hr]
  cases h : (s.readStoredPage L o).2 with
  | error e => exact .inl ⟨e, rfl⟩
  | ok p =>
    rw [pageAt_of_ok h]
    exact .inr ⟨rfl, rfl⟩

end EBTree.BTree.CachedPageFile
