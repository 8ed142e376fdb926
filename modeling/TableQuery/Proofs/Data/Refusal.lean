/-! # Refusals

A reading in stages refuses with what one of its stages refuses with.
-/
namespace TableQuery
variable {α β ε ε' : Type} {P : ε → Prop}

def Refuses (P : ε → Prop) (x : Except ε α) : Prop := ∀ e, x = .error e → P e

namespace Refuses

theorem ok (a : α) : Refuses P (.ok a : Except ε α) := fun _ h => nomatch h

theorem error {e : ε} (h : P e) : Refuses P (.error e : Except ε α) := by
  rintro _ ⟨⟩
  exact h

theorem imp {Q : ε → Prop} {x : Except ε α} (hx : Refuses P x) (h : ∀ e, P e → Q e) :
    Refuses Q x := fun e he => h e (hx e he)

/-- What a stage refuses with counts only behind a success of the stage before it. -/
theorem bind_of {x : Except ε α} {f : α → Except ε β} (hx : Refuses P x)
    (hf : ∀ a, x = .ok a → Refuses P (f a)) : Refuses P (x >>= f) := by
  cases x with
  | error e => exact error (hx e rfl)
  | ok a => exact hf a rfl

theorem bind {x : Except ε α} {f : α → Except ε β} (hx : Refuses P x)
    (hf : ∀ a, Refuses P (f a)) : Refuses P (x >>= f) := hx.bind_of fun a _ => hf a

theorem map {x : Except ε α} (hx : Refuses P x) (f : α → β) : Refuses P (x.map f) := by
  cases x with
  | error e => exact error (hx e rfl)
  | ok a => exact ok (f a)

theorem mapError {x : Except ε' α} {f : ε' → ε} (h : ∀ e, P (f e)) :
    Refuses P (x.mapError f) := by
  cases x with
  | error e => exact error (h e)
  | ok a => exact ok a

theorem ite {c : Prop} [Decidable c] {x y : Except ε α} (hx : Refuses P x) (hy : Refuses P y) :
    Refuses P (if c then x else y) := by
  split
  · exact hx
  · exact hy

theorem mapM {f : α → Except ε β} (h : ∀ a, Refuses P (f a)) (xs : List α) :
    Refuses P (xs.mapM f) := by
  induction xs with
  | nil => exact ok []
  | cons a xs ih =>
    rw [List.mapM_cons]
    exact (h a).bind fun _ => ih.bind fun _ => ok _

theorem foldlM {f : β → α → Except ε β} (h : ∀ b a, Refuses P (f b a)) (xs : List α) (b : β) :
    Refuses P (xs.foldlM f b) := by
  induction xs generalizing b with
  | nil => exact ok b
  | cons a xs ih =>
    rw [List.foldlM_cons]
    exact (h b a).bind ih

end Refuses
end TableQuery
