import Mathlib

/-!
# Scanning a log with resynchronisation

A `Reader` reads a frame at an offset, or not; where it reads none, the scanner goes on at
`skip`. `scan R len o` lists the frames accepted from `o` to the end `len` with their offsets.

* `scan_induction`: the induction over a scan's steps.
* `Frames R o xs o'`: from `o`, the frames `xs` follow each other and end at `o'`; a scan starts
  with them (`scan_frames`).
* `scan_eq_nil_iff`: the scanner accepts nothing exactly when no offset it tries reads.
* `scan_size`: the frames accepted take disjoint parts of the log.
-/

set_option autoImplicit false

namespace EBTree.Lib

/-- A frame reader on one log; both ways on make progress. -/
structure Reader (α : Type) where
  read : Nat → Option (α × Nat)
  skip : Nat → Nat
  read_gt : ∀ {o a n}, read o = some (a, n) → o < n
  skip_gt : ∀ o, o < skip o

namespace Reader

variable {α : Type}

/-- The scan loop, `fuel` steps of it. -/
def scanFuel (R : Reader α) (len : Nat) : Nat → Nat → List (Nat × α)
  | 0, _ => []
  | fuel + 1, o =>
    if o < len then
      match R.read o with
      | some (a, n) => (o, a) :: scanFuel R len fuel n
      | none => scanFuel R len fuel (R.skip o)
    else []

/-- The frames accepted from `o` to the end of the log; every step takes at least a byte. -/
def scan (R : Reader α) (len o : Nat) : List (Nat × α) := R.scanFuel len (len - o) o

variable {R : Reader α} {len : Nat}

theorem scanFuel_of_ge {fuel o : Nat} (h : len ≤ o) : R.scanFuel len fuel o = [] := by
  cases fuel with
  | zero => rfl
  | succ fuel => simp [scanFuel, Nat.not_lt.2 h]

/-- Any fuel that covers the rest of the log gives the same frames. -/
theorem scanFuel_stable {f g o : Nat} (hf : len - o ≤ f) (hg : len - o ≤ g) :
    R.scanFuel len f o = R.scanFuel len g o := by
  induction f generalizing g o with
  | zero => rw [scanFuel_of_ge (by omega), scanFuel_of_ge (by omega)]
  | succ f ih =>
    by_cases ho : o < len
    · obtain ⟨g, rfl⟩ : ∃ g', g = g' + 1 := ⟨g - 1, by omega⟩
      simp only [scanFuel, ho, if_true]
      cases hr : R.read o with
      | some p =>
        have hn := R.read_gt (a := p.1) (n := p.2) hr
        simp only [ih (g := g) (o := p.2) (by omega) (by omega)]
      | none =>
        have hn := R.skip_gt o
        simp only [ih (g := g) (o := R.skip o) (by omega) (by omega)]
    · rw [scanFuel_of_ge (by omega), scanFuel_of_ge (by omega)]

theorem scan_of_ge {o : Nat} (h : len ≤ o) : R.scan len o = [] := scanFuel_of_ge h

theorem scan_read {o n : Nat} {a : α} (ho : o < len) (hr : R.read o = some (a, n)) :
    R.scan len o = (o, a) :: R.scan len n := by
  have hn := R.read_gt hr
  obtain ⟨d, hd⟩ : ∃ d, len - o = d + 1 := ⟨len - o - 1, by omega⟩
  rw [scan, hd]
  simp only [scanFuel, ho, if_true, hr, scan]
  rw [scanFuel_stable (g := len - n) (by omega) (Nat.le_refl _)]

theorem scan_skip {o : Nat} (hr : R.read o = none) : R.scan len o = R.scan len (R.skip o) := by
  have hn := R.skip_gt o
  by_cases ho : o < len
  · obtain ⟨d, hd⟩ : ∃ d, len - o = d + 1 := ⟨len - o - 1, by omega⟩
    rw [scan, hd]
    simp only [scanFuel, ho, if_true, hr, scan]
    rw [scanFuel_stable (g := len - R.skip o) (by omega) (Nat.le_refl _)]
  · rw [scan_of_ge (by omega), scan_of_ge (by omega)]

/-- Induction over the steps of a scan. -/
theorem scan_induction {P : Nat → Prop} (R : Reader α) (len : Nat)
    (done : ∀ o, len ≤ o → P o)
    (read : ∀ o a n, o < len → R.read o = some (a, n) → P n → P o)
    (skip : ∀ o, o < len → R.read o = none → P (R.skip o) → P o) (o : Nat) : P o := by
  generalize hd : len - o = d
  induction d using Nat.strongRecOn generalizing o with
  | ind d ih =>
    by_cases ho : o < len
    · cases hr : R.read o with
      | some p =>
        have hn := R.read_gt (a := p.1) (n := p.2) hr
        exact read o p.1 p.2 ho hr (ih (len - p.2) (by omega) p.2 rfl)
      | none =>
        have hn := R.skip_gt o
        exact skip o ho hr (ih (len - R.skip o) (by omega) _ rfl)
    · exact done o (by omega)

/-! ## Frames that follow each other -/

/-- From `o`, the reader accepts the frames `xs` one after the other, the last ending at `o'`. -/
inductive Frames (R : Reader α) : Nat → List (Nat × α) → Nat → Prop
  | nil (o : Nat) : Frames R o [] o
  | cons {o n o' : Nat} {a : α} {xs : List (Nat × α)} :
      R.read o = some (a, n) → Frames R n xs o' → Frames R o ((o, a) :: xs) o'

theorem Frames.le {o o' : Nat} {xs : List (Nat × α)} (h : Frames R o xs o') : o ≤ o' := by
  induction h with
  | nil => exact Nat.le_refl _
  | cons hr _ ih => exact Nat.le_trans (Nat.le_of_lt (R.read_gt hr)) ih

theorem Frames.append {o o' o'' : Nat} {xs ys : List (Nat × α)} (h : Frames R o xs o')
    (h' : Frames R o' ys o'') : Frames R o (xs ++ ys) o'' := by
  induction h with
  | nil => exact h'
  | cons hr _ ih => exact .cons hr (ih h')

/-- **A scan starts with the frames laid out from its start.** -/
theorem scan_frames {o o' : Nat} {xs : List (Nat × α)} (h : Frames R o xs o') (ho : o' ≤ len) :
    R.scan len o = xs ++ R.scan len o' := by
  induction h with
  | nil => rfl
  | cons hr ht ih =>
    have hn := R.read_gt hr
    have hle := ht.le
    rw [scan_read (by omega) hr, ih ho, List.cons_append]

/-- The frames of blocks that follow each other from `o` on. -/
def layout {β : Type} (size : β → Nat) (val : β → α) (o : Nat) : List β → List (Nat × α)
  | [] => []
  | b :: bs => (o, val b) :: layout size val (o + size b) bs

section Blocks

variable {β γ : Type} {size : β → Nat} {val : β → α}

@[simp] theorem layout_map_snd (o : Nat) (bs : List β) :
    (layout size val o bs).map (·.2) = bs.map val := by
  induction bs generalizing o with
  | nil => rfl
  | cons b bs ih => simp [layout, ih]

theorem mem_layout {o : Nat} {bs : List β} {x : Nat × α} (h : x ∈ layout size val o bs) :
    ∃ b ∈ bs, x.2 = val b := by
  have : x.2 ∈ (layout size val o bs).map (·.2) := List.mem_map_of_mem h
  rw [layout_map_snd] at this
  obtain ⟨b, hb, he⟩ := List.mem_map.1 this
  exact ⟨b, hb, he.symm⟩

/-- A frame of a layout, and the blocks in front of it and behind it. -/
theorem mem_layout_iff {o : Nat} {bs : List β} {x : Nat × α} :
    x ∈ layout size val o bs ↔ ∃ front b back, bs = front ++ b :: back ∧
      x = (o + (front.map size).sum, val b) := by
  induction bs generalizing o with
  | nil => simp [layout]
  | cons b bs ih =>
    rw [layout, List.mem_cons, ih]
    constructor
    · rintro (rfl | ⟨front, b', back, rfl, rfl⟩)
      · exact ⟨[], b, bs, rfl, rfl⟩
      · exact ⟨b :: front, b', back, rfl, by simp [Nat.add_assoc]⟩
    · rintro ⟨front, b', back, hbs, rfl⟩
      cases front with
      | nil =>
        cases hbs
        exact .inl rfl
      | cons c front =>
        cases hbs
        exact .inr ⟨front, b', back, rfl, by simp [Nat.add_assoc]⟩

theorem layout_append (o : Nat) (bs bs' : List β) :
    layout size val o (bs ++ bs')
      = layout size val o bs ++ layout size val (o + (bs.map size).sum) bs' := by
  induction bs generalizing o with
  | nil => rfl
  | cons b bs ih => simp [layout, ih, Nat.add_assoc]

variable (val) in
/-- **Blocks that read back one by one read back in a row**, for a family of readers of logs. -/
theorem frames_blocks (R : List γ → Reader α) (enc : β → List γ) {P : β → Prop}
    (hsize : ∀ b, (enc b).length = size b)
    (hread : ∀ pre rest b, P b →
      (R (pre ++ (enc b ++ rest))).read pre.length = some (val b, pre.length + size b))
    (pre rest : List γ) {bs : List β} (h : ∀ b ∈ bs, P b) :
    Frames (R (pre ++ ((bs.map enc).flatten ++ rest))) pre.length (layout size val pre.length bs)
      (pre.length + (bs.map size).sum) := by
  induction bs generalizing pre with
  | nil => exact .nil _
  | cons b bs ih =>
    have e : pre ++ (((b :: bs).map enc).flatten ++ rest)
        = (pre ++ enc b) ++ ((bs.map enc).flatten ++ rest) := by simp
    have hr := hread pre ((bs.map enc).flatten ++ rest) b (h b List.mem_cons_self)
    have ht := ih (pre ++ enc b) fun b' h' => h b' (List.mem_cons_of_mem _ h')
    rw [← List.append_assoc, ← e] at hr
    rw [← e, List.length_append, hsize] at ht
    have hs : pre.length + ((b :: bs).map size).sum
        = pre.length + size b + (bs.map size).sum := by simp [Nat.add_assoc]
    rw [hs]
    exact .cons hr ht

end Blocks

/-- The offset the last frame accepted from `o` ends at, `d` when there is none. -/
def lastEnd (R : Reader α) (len o d : Nat) : Nat :=
  match (R.scan len o).getLast? with
  | none => d
  | some (o', _) => ((R.read o').map (·.2)).getD d

theorem lastEnd_of_nil {o d : Nat} (h : R.scan len o = []) : R.lastEnd len o d = d := by
  simp [lastEnd, h]

theorem Frames.read_last {o o' p : Nat} {a : α} {xs : List (Nat × α)} (h : Frames R o xs o')
    (hl : xs.getLast? = some (p, a)) : R.read p = some (a, o') := by
  induction h with
  | nil => cases hl
  | @cons o n o' b xs hr ht ih =>
    cases xs with
    | nil =>
      cases hl
      cases ht
      exact hr
    | cons x xs => exact ih (by simpa [List.getLast?_cons_cons] using hl)

/-- A scan that accepts just the frames `xs` ends where they do. -/
theorem lastEnd_frames {o o' d : Nat} {xs : List (Nat × α)} (h : Frames R o xs o')
    (hs : R.scan len o = xs) (hd : xs = [] → d = o) : R.lastEnd len o d = o' := by
  rw [lastEnd, hs]
  cases hl : xs.getLast? with
  | none =>
    have hx := List.getLast?_eq_none_iff.1 hl
    subst hx
    cases h
    exact hd rfl
  | some p => simp [h.read_last hl]

/-- What the scan accepts ends within the log. -/
theorem lastEnd_le {o d : Nat} (hr : ∀ {o a n}, R.read o = some (a, n) → n ≤ len) (hd : d ≤ len) :
    R.lastEnd len o d ≤ len := by
  unfold lastEnd
  split
  · exact hd
  · rename_i p a _
    cases h : R.read p with
    | none => exact hd
    | some q => exact hr h

/-! ## Silence, size, congruence -/

theorem le_skip_iterate (R : Reader α) (o k : Nat) : o ≤ (R.skip)^[k] o := by
  induction k with
  | zero => exact Nat.le_refl _
  | succ k ih =>
    rw [Function.iterate_succ_apply']
    exact Nat.le_trans ih (Nat.le_of_lt (R.skip_gt _))

/-- **Nothing is accepted from `o` on exactly when no offset the scanner tries reads.** -/
theorem scan_eq_nil_iff (o : Nat) :
    R.scan len o = [] ↔ ∀ k, (R.skip)^[k] o < len → R.read ((R.skip)^[k] o) = none := by
  induction o using scan_induction R len with
  | done o h =>
    refine ⟨fun _ k hk => ?_, fun _ => scan_of_ge h⟩
    have := le_skip_iterate R o k
    omega
  | read o a n ho hr _ =>
    rw [scan_read ho hr]
    refine ⟨fun h => (List.cons_ne_nil _ _ h).elim, fun h => ?_⟩
    have := h 0 ho
    simp [hr] at this
  | skip o ho hr ih =>
    rw [scan_skip hr, ih]
    refine ⟨fun h k hk => ?_, fun h k hk => h (k + 1) hk⟩
    cases k with
    | zero => exact hr
    | succ k => exact h k hk

theorem scan_eq_nil_of_forall {o : Nat} (h : ∀ q, o ≤ q → q < len → R.read q = none) :
    R.scan len o = [] :=
  (scan_eq_nil_iff o).2 fun k => h _ (le_skip_iterate R o k)

/-- **The accepted frames take disjoint parts of the log**: their sizes add up to at most what
lies between the start and the end. -/
theorem scan_size {size : α → Nat} (o : Nat)
    (hs : ∀ {o a n}, R.read o = some (a, n) → o + size a ≤ n ∧ n ≤ len) :
    ((R.scan len o).map (fun x => size x.2)).sum ≤ len - o := by
  induction o using scan_induction R len with
  | done o h => simp [scan_of_ge h]
  | read o a n ho hr ih =>
    obtain ⟨h1, h2⟩ := hs hr
    rw [scan_read ho hr]
    simp only [List.map_cons, List.sum_cons]
    omega
  | skip o ho hr ih =>
    have := R.skip_gt o
    rw [scan_skip hr]
    omega

/-- Readers that agree from `o` on scan the same from there. -/
theorem scan_congr {S : Reader α} (o : Nat) (hr : ∀ o', o ≤ o' → R.read o' = S.read o')
    (hk : ∀ o', R.skip o' = S.skip o') : R.scan len o = S.scan len o := by
  induction o using scan_induction R len with
  | done o h => rw [scan_of_ge h, scan_of_ge h]
  | read o a n ho h ih =>
    have hn := R.read_gt h
    rw [scan_read ho h, scan_read ho (by rw [← hr o (Nat.le_refl _), h]),
      ih (fun o' h' => hr o' (by omega))]
  | skip o ho h ih =>
    have hn := R.skip_gt o
    rw [scan_skip h, scan_skip (R := S) (by rw [← hr o (Nat.le_refl _), h]), ← hk o,
      ih (fun o' h' => hr o' (by omega))]

end Reader
end EBTree.Lib
