/-!
Labels and their supply. Labels are numbered from zero in the order in which they are handed out;
any label may be placed, but a label counts as new only the first time.
-/
namespace StackLowering

structure Label where
  id : Nat
deriving DecidableEq, Repr, Inhabited

def Label.text (l : Label) : String := s!"Label_{l.id}"

/-- A number is known from its decimal text. -/
theorem toString_injective {m n : Nat} (h : toString m = toString n) : m = n := by
  have hdigits : Nat.toDigits 10 m = Nat.toDigits 10 n := String.ofList_inj.mp h
  rw [← @Nat.ofDigitChars_ten_toDigits m, hdigits, Nat.ofDigitChars_ten_toDigits]

structure LabelSupply where
  next : Nat := 0
  placed : List Label := []
deriving DecidableEq, Repr, Inhabited

namespace LabelSupply

/-- Hand out the next label. -/
def allocate (s : LabelSupply) : Label × LabelSupply := (⟨s.next⟩, { s with next := s.next + 1 })

def isPlaced (s : LabelSupply) (l : Label) : Bool := s.placed.contains l

def place (s : LabelSupply) (l : Label) : LabelSupply :=
  if s.isPlaced l then s else { s with placed := l :: s.placed }

@[simp] theorem allocate_next (s : LabelSupply) : s.allocate.2.next = s.next + 1 := rfl
@[simp] theorem allocate_placed (s : LabelSupply) : s.allocate.2.placed = s.placed := rfl

@[simp] theorem place_next (s : LabelSupply) (l : Label) : (s.place l).next = s.next := by
  unfold place; split <;> rfl

theorem isPlaced_iff (s : LabelSupply) (l : Label) : s.isPlaced l = true ↔ l ∈ s.placed := by
  simp [isPlaced]

theorem mem_placed_place (s : LabelSupply) (l m : Label) :
    m ∈ (s.place l).placed ↔ m = l ∨ m ∈ s.placed := by
  unfold place
  split
  case isTrue h =>
    have hl := (s.isPlaced_iff l).mp h
    constructor
    · exact Or.inr
    · rintro (rfl | hm)
      · exact hl
      · exact hm
  case isFalse => simp

end LabelSupply

end StackLowering
