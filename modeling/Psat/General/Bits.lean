import Mathlib.Data.Nat.Bitwise

namespace Psat.General.Bits

-- A mask as a set: every bit of one is a bit of the other.
def Within (x y : Nat) : Prop := ∀ k, x.testBit k = true → y.testBit k = true

theorem Within.le (within : Within x y) : x ≤ y := by
  have same : x &&& y = x := by
    apply Nat.eq_of_testBit_eq
    intro k
    rw [Nat.testBit_and]
    cases bit : x.testBit k with
    | false => rfl
    | true => simp [within k bit]
  rw [← same]
  exact Nat.and_le_right

theorem testBit_foldl_and (masks : α → Nat) (start : Nat) (members : List α) (k : Nat) :
    (members.foldl (fun acc s => acc &&& masks s) start).testBit k =
    (start.testBit k && members.all fun s => (masks s).testBit k) := by
  induction members generalizing start with
  | nil => simp
  | cons first rest ih => rw [List.foldl_cons,ih,Nat.testBit_and,List.all_cons,Bool.and_assoc]

end Psat.General.Bits
