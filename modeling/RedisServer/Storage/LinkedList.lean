import RedisServer.Machine.CText

/-! The list values of `linked_list.c`, as the sequence of their data from
head to tail. Lengths are reported through an `int`. -/
namespace RedisServer

open Machine

/-- The new list and the length stored through the caller's pointer. -/
def lpush (list : List Bytes) (data : Bytes) : List Bytes × Int :=
  (data :: list, toInt32 (list.length + 1))

def rpush (list : List Bytes) (data : Bytes) : List Bytes × Int :=
  (list ++ [data], toInt32 (list.length + 1))

/-- The two functions that add an element. -/
inductive Side where
  | left
  | right
  deriving DecidableEq

def Side.push : Side → List Bytes → Bytes → List Bytes × Int
  | .left => lpush
  | .right => rpush

/-- The selected elements, or `none` for the null pointer, and the range
length. An index is added to the `size_t` length and converted back to `int`;
it is compared with the length only when it is not negative. -/
def lrange (list : List Bytes) (start stop : Int) : Option (List Bytes) × Int :=
  let length : Int := list.length
  let start := if start < 0 then toInt32 (length + start) else start
  let stop := if stop < 0 then toInt32 (length + stop) else stop
  if start < 0 ∨ start ≥ length ∨ stop < start then (none, 0)
  else
    let stop := if stop ≥ length then toInt32 (length - 1) else stop
    let count := toInt32 (stop - start + 1)
    let range := (list.drop start.toNat).take count.toNat
    (some range, range.length)

theorem Side.push_length (side : Side) (xs : List Bytes) (data : Bytes) :
    (side.push xs data).1.length = xs.length + 1 ∧
      (side.push xs data).2 = toInt32 (xs.length + 1) := by
  cases side with
  | left => exact ⟨by simp [Side.push, lpush], by rw [Side.push, lpush]⟩
  | right => exact ⟨by simp [Side.push, rpush], by rw [Side.push, rpush]⟩

/-- The position an index stands for: a negative one counts from the end. -/
def listPosition (length : Nat) (index : Int) : Int :=
  if index < 0 then length + index else index

/-- The elements at the positions from `first` to `last`. -/
def elementsBetween (xs : List Bytes) (first last : Int) : List Bytes :=
  (xs.zipIdx.filter fun x => first ≤ x.2 ∧ x.2 ≤ last).map Prod.fst

section Ranges

variable (xs : List Bytes) (first last : Int)

theorem elements_from_start (n : Nat) (h : first ≤ n) :
    ((xs.zipIdx n).filter fun x => first ≤ x.2 ∧ x.2 ≤ last).map Prod.fst =
      xs.take (last - n + 1).toNat := by
  induction xs generalizing n with
  | nil => simp
  | cons x xs ih =>
      have hRest := ih (n + 1) (by push_cast; omega)
      by_cases hLast : (n : Int) ≤ last
      · have hCount : (last - n + 1).toNat = (last - (n + 1 : Nat) + 1).toNat + 1 := by
          push_cast
          omega
        rw [List.zipIdx_cons, List.filter_cons_of_pos (by simpa using ⟨h, hLast⟩), List.map_cons,
          hRest, hCount, List.take_succ_cons]
      · have hCount : (last - n + 1).toNat = 0 := by omega
        have hCount' : (last - (n + 1 : Nat) + 1).toNat = 0 := by
          push_cast
          omega
        rw [List.zipIdx_cons, List.filter_cons_of_neg (by simpa using fun _ => by omega), hRest,
          hCount, hCount', List.take_zero, List.take_zero]

theorem elements_from (n : Nat) (h : n ≤ first) :
    ((xs.zipIdx n).filter fun x => first ≤ x.2 ∧ x.2 ≤ last).map Prod.fst =
      (xs.drop (first - n).toNat).take (last - first + 1).toNat := by
  induction xs generalizing n with
  | nil => simp
  | cons x xs ih =>
      rcases Int.lt_or_eq_of_le h with hLater | hHere
      · have hSkip : (first - n).toNat = (first - (n + 1 : Nat)).toNat + 1 := by
          push_cast
          omega
        rw [List.zipIdx_cons, List.filter_cons_of_neg (by simp; omega),
          ih (n + 1) (by push_cast; omega), hSkip, List.drop_succ_cons]
      · subst hHere
        rw [elements_from_start _ _ _ _ le_rfl]
        simp

/-- The elements between two positions are a piece of the list. -/
theorem elementsBetween_eq (h : 0 ≤ first) :
    elementsBetween xs first last =
      (xs.drop first.toNat).take (last - first + 1).toNat := by
  have hPiece := elements_from xs first last 0 (by simpa using h)
  simpa [elementsBetween] using hPiece

/-- No position is past the end. -/
theorem elementsBetween_min :
    elementsBetween xs first (min last (xs.length - 1)) = elementsBetween xs first last := by
  unfold elementsBetween
  congr 1
  apply List.filter_congr
  intro x hx
  have hInside := (List.mem_zipIdx' hx).1
  rw [decide_eq_decide]
  omega

theorem length_elementsBetween (hFirst : 0 ≤ first) (hInside : first < xs.length)
    (hLast : first ≤ last) :
    ((elementsBetween xs first last).length : Int) = min last (xs.length - 1) - first + 1 := by
  rw [elementsBetween_eq xs first last hFirst, List.length_take, List.length_drop]
  omega

end Ranges

/-- What `lrange` selects, for indices that are `int`s. -/
theorem lrange_eq {xs : List Bytes} {start stop : Int} (hSize : xs.length ≤ 2 ^ 31 - 1)
    (hStart : -2 ^ 31 ≤ start ∧ start < 2 ^ 31) (hStop : -2 ^ 31 ≤ stop ∧ stop < 2 ^ 31) :
    lrange xs start stop =
      let first := listPosition xs.length start
      let last := listPosition xs.length stop
      if 0 ≤ first ∧ first < xs.length ∧ first ≤ last then
        (some (elementsBetween xs first last), min last (xs.length - 1) - first + 1)
      else (none, 0) := by
  have hFirst : (if start < 0 then toInt32 (xs.length + start) else start) =
      listPosition xs.length start := by
    unfold listPosition
    split
    · exact toInt32_of_small (by omega) (by omega)
    · rfl
  have hLast : (if stop < 0 then toInt32 (xs.length + stop) else stop) =
      listPosition xs.length stop := by
    unfold listPosition
    split
    · exact toInt32_of_small (by omega) (by omega)
    · rfl
  have hFirstSmall : listPosition xs.length start < 2 ^ 31 := by
    unfold listPosition
    split <;> omega
  have hLastSmall : listPosition xs.length stop < 2 ^ 31 := by
    unfold listPosition
    split <;> omega
  unfold lrange
  simp only [hFirst, hLast]
  generalize listPosition xs.length start = first at *
  generalize listPosition xs.length stop = last at *
  by_cases hInside : 0 ≤ first ∧ first < xs.length ∧ first ≤ last
  · rw [if_neg (by omega), if_pos hInside]
    have hEnd : (if last ≥ xs.length then toInt32 (xs.length - 1) else last) =
        min last (xs.length - 1) := by
      split
      · rw [toInt32_of_small (by omega) (by omega)]
        omega
      · omega
    have hCount : toInt32 (min last (xs.length - 1) - first + 1) =
        min last (xs.length - 1) - first + 1 :=
      toInt32_of_small (by omega) (by omega)
    have hPiece : elementsBetween xs first last =
        (xs.drop first.toNat).take (min last (xs.length - 1) - first + 1).toNat := by
      rw [elementsBetween_eq xs first last hInside.1]
      apply List.take_eq_take_iff.mpr
      rw [List.length_drop]
      omega
    rw [hEnd, hCount, ← hPiece, length_elementsBetween xs first last hInside.1 hInside.2.1
      hInside.2.2]
  · rw [if_pos (by omega), if_neg hInside]

end RedisServer
