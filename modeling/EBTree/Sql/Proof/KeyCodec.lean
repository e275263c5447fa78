import EBTree.Sql.KeyCodec
import EBTree.Sql.Proof.Delete
import EBTree.Sql.Proof.IndexScan
import EBTree.Sql.Proof.Reload

/-!
# Stored keys read back

* `readRowKey_encodeRowKey`: a row's key reads back, whatever its primary key.
* `readIndexKey_encodeIndexKey`: of an entry the value is read up to its first colon.
* `keys_unambiguous_iff`: **when an entry and a row can be told from each other and read back**.
-/

set_option autoImplicit false

namespace EBTree.Sql

open Lib Engine CatalogStore

/-! ## Parts -/

theorem cutAt_append {c : UInt8} {a : Bytes} (h : c ∉ a) (b : Bytes) :
    cutAt c (a ++ c :: b) = some (a, b) := by
  rw [cutAt, indexOf?_singleton_append h, Option.map_some, List.take_left]
  have hdrop : (a ++ c :: b).drop (a.length + 1) = b := by
    rw [← List.drop_drop, List.drop_left]
    rfl
  rw [hdrop]

theorem cutAt_some {c : UInt8} {s a b : Bytes} (h : cutAt c s = some (a, b)) :
    c ∉ a ∧ s = a ++ c :: b := by
  by_cases hc : c ∈ s
  · obtain ⟨a', b', rfl, ha'⟩ := List.eq_append_cons_of_mem hc
    rw [cutAt_append ha'] at h
    cases h
    exact ⟨ha', rfl⟩
  · rw [cutAt, indexOf?_eq_none_of_not_mem (List.mem_singleton_self c) hc] at h
    cases h

theorem stoulId_decimal (id : UInt32) : stoulId (decimal id.toNat) = some id := by
  have hid := id.toNat_lt
  have hread := @stoul_decimal_append id.toNat (by omega) [] rfl
  rw [List.append_nil] at hread
  rw [stoulId, hread]
  simp

theorem colon_not_mem (id : UInt32) : 58 ∉ decimal id.toNat :=
  fun h => colon_not_mem_decimal _ _ h rfl

/-! ## The scans' readers -/

/-- What a scan reads of a row's key is its key part. -/
theorem decodeRowKey_of_parts {encoded : Key} {r : RowKey} (h : readRowKey encoded = .parts r) :
    decodeRowKey encoded = some r.key := by
  unfold readRowKey at h
  cases hcut : cutAt 58 encoded with
  | none => simp [hcut] at h
  | some fk =>
    obtain ⟨front, key⟩ := fk
    obtain ⟨hfront, rfl⟩ := cutAt_some hcut
    have hne : ∀ b ∈ front, decide (b ≠ 58) = true :=
      fun b hb => decide_eq_true fun hb' => hfront (hb' ▸ hb)
    simp only [hcut] at h
    split at h
    · cases h
    split at h
    · cases h
    split at h
    · cases h
    · rename_i hnil h105 _ _ _
      cases h
      unfold decodeRowKey
      rw [List.takeWhile_append_of_pos hne, List.dropWhile_append_of_pos hne]
      simp [hnil, h105]

/-- What a scan reads of an entry's key is its primary key. -/
theorem decodeIndexKeyPrefix_of_parts {encoded : Key} {r : IndexKey}
    (h : readIndexKey encoded = .parts r) : decodeIndexKeyPrefix encoded = some r.pk := by
  have hfront : ∀ {a : Bytes}, 58 ∉ a → ∀ b ∈ a, decide (b ≠ 58) = true :=
    fun ha b hb => decide_eq_true fun hb' => ha (hb' ▸ hb)
  unfold readIndexKey at h
  cases h1 : cutAt 58 encoded with
  | none => simp [h1] at h
  | some x =>
    obtain ⟨table, rest⟩ := x
    obtain ⟨ht, rfl⟩ := cutAt_some h1
    cases h2 : cutAt 58 rest with
    | none => simp [h1, h2] at h
    | some y =>
      obtain ⟨idxPart, rest'⟩ := y
      obtain ⟨hi, rfl⟩ := cutAt_some h2
      cases h3 : cutAt 58 rest' with
      | none => simp [h1, h2, h3] at h
      | some z =>
        obtain ⟨colValue, pk⟩ := z
        obtain ⟨hv, rfl⟩ := cutAt_some h3
        simp only [h1, h2, h3] at h
        split at h
        · cases h
        split at h
        · rename_i hhead _ _ _ _ _ _
          cases h
          unfold decodeIndexKeyPrefix
          rw [List.dropWhile_append_of_pos (hfront ht)]
          have hidx : (idxPart ++ 58 :: (colValue ++ 58 :: pk)).takeWhile (· ≠ 58) = idxPart := by
            rw [List.takeWhile_append_of_pos (hfront hi)]
            simp
          have hrest : (idxPart ++ 58 :: (colValue ++ 58 :: pk)).dropWhile (· ≠ 58) =
              58 :: (colValue ++ 58 :: pk) := by
            rw [List.dropWhile_append_of_pos (hfront hi)]
            simp
          have hpk : ((colValue ++ 58 :: pk).dropWhile (· ≠ 58)).tail? = some pk := by
            rw [List.dropWhile_append_of_pos (hfront hv)]
            simp
          simp only [List.dropWhile_cons, ne_eq, not_true_eq_false, decide_false,
            Bool.false_eq_true, if_false, hidx, hrest, hpk, hhead]
        · cases h

/-! ## What was written reads back -/

/-- **A row's key reads back.** -/
theorem readRowKey_encodeRowKey (id : UInt32) (key : Bytes) :
    readRowKey (encodeRowKey id key) = .parts ⟨id, key⟩ := by
  have hcut : cutAt 58 (encodeRowKey id key) = some (decimal id.toNat, key) := by
    rw [encodeRowKey, tableKeyFront, List.append_assoc]
    exact cutAt_append (colon_not_mem id) key
  have hsecond : (decimal id.toNat)[1]? ≠ some 105 := by
    intro h
    have hdigit := isDigit_of_mem_decimal (List.mem_of_getElem? h)
    exact absurd hdigit.2 (by decide)
  simp only [readRowKey, hcut, decimal_ne_nil, hsecond, stoulId_decimal, if_false]

/-- **An entry's key reads back up to the first colon of its value.** -/
theorem readIndexKey_encodeIndexKey (tableId indexId : UInt32) (colValue pk : Bytes) :
    readIndexKey (encodeIndexKey tableId indexId colValue pk) =
      match cutAt 58 (colValue ++ 58 :: pk) with
      | none => .refused
      | some (value, rest) => .parts ⟨tableId, indexId, value, rest⟩ := by
  have htable : cutAt 58 (encodeIndexKey tableId indexId colValue pk) =
      some (decimal tableId.toNat,
        105 :: (decimal indexId.toNat ++ 58 :: (colValue ++ 58 :: pk))) := by
    rw [encodeIndexKey, tableKeyFront, List.append_assoc]
    exact cutAt_append (colon_not_mem tableId) _
  have hindex : cutAt 58 (105 :: (decimal indexId.toNat ++ 58 :: (colValue ++ 58 :: pk))) =
      some (105 :: decimal indexId.toNat, colValue ++ 58 :: pk) := by
    have hno : 58 ∉ 105 :: decimal indexId.toNat := by
      rw [List.mem_cons, not_or]
      exact ⟨by decide, colon_not_mem indexId⟩
    exact cutAt_append hno _
  simp only [readIndexKey, htable, hindex, List.head?_cons, ne_eq, not_true_eq_false, if_false,
    List.drop_succ_cons, List.drop_zero, stoulId_decimal]
  <;> rfl

/-- An entry reads back exactly when its value holds no colon. -/
theorem readIndexKey_iff (tableId indexId : UInt32) (colValue pk : Bytes) :
    readIndexKey (encodeIndexKey tableId indexId colValue pk) =
        .parts ⟨tableId, indexId, colValue, pk⟩ ↔ 58 ∉ colValue := by
  rw [readIndexKey_encodeIndexKey]
  by_cases hc : 58 ∈ colValue
  · obtain ⟨a, b, rfl, ha⟩ := List.eq_append_cons_of_mem hc
    refine iff_of_false (fun h => ?_) fun h => h hc
    rw [List.append_assoc, List.cons_append, cutAt_append ha] at h
    simp at h
  · rw [cutAt_append hc]
    exact iff_of_true rfl hc

/-! ## Rows and entries -/

/-- The keys of an entry and of a row read back, and tell which of the two they are. -/
structure KeysUnambiguous (entry : IndexKey) (row : RowKey) : Prop where
  index_inverse : readIndexKey
    (encodeIndexKey entry.tableId entry.indexId entry.colValue entry.pk) = .parts entry
  row_inverse : readRowKey (encodeRowKey row.tableId row.key) = .parts row
  apart : encodeIndexKey entry.tableId entry.indexId entry.colValue entry.pk ≠
    encodeRowKey row.tableId row.key
  index_classified : isIndexEncodedKey
    (encodeIndexKey entry.tableId entry.indexId entry.colValue entry.pk) = true
  row_classified : isIndexEncodedKey (encodeRowKey row.tableId row.key) = false

/-- **When stored keys are unambiguous**: the value of the entry holds no colon, and the row's
primary key does not start like an entry. -/
theorem keys_unambiguous_iff (entry : IndexKey) (row : RowKey) :
    KeysUnambiguous entry row ↔ 58 ∉ entry.colValue ∧ ¬ IndexLike row.key := by
  have hindex := isIndexEncodedKey_encodeIndexKey entry.tableId entry.indexId entry.colValue
    entry.pk
  have hrow := isIndexEncodedKey_encodeRowKey row.tableId row.key
  constructor
  · intro h
    refine ⟨(readIndexKey_iff _ _ _ _).1 h.index_inverse, fun hlike => ?_⟩
    have hno := h.row_classified
    rw [hrow.2 hlike] at hno
    cases hno
  · rintro ⟨hcolon, hlike⟩
    have hno : isIndexEncodedKey (encodeRowKey row.tableId row.key) = false := by
      rw [← Bool.not_eq_true, hrow]
      exact hlike
    refine ⟨(readIndexKey_iff _ _ _ _).2 hcolon, readRowKey_encodeRowKey _ _, fun heq => ?_,
      hindex, hno⟩
    rw [heq, hno] at hindex
    cases hindex

/-- A value with a colon is read as another value, with another primary key behind it. -/
theorem colon_value_misread :
    ¬ KeysUnambiguous ⟨1, 1, [97, 58, 98], [99]⟩ ⟨1, [120]⟩ := by
  intro h
  exact absurd h.index_inverse (by decide +kernel)

end EBTree.Sql
