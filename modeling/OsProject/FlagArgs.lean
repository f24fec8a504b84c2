import OsProject.TextLines

/-! The loop with which a utility reads the arguments that start with a dash. -/

namespace OsProject

def DASH : UInt8 := 45

/-- `while(i < argc && argv[i][0] == '-')`, with the arguments from `i` on. -/
def flagLoop {σ : Type*} (step : σ → List UInt8 → σ) (s : σ) (i : Nat) : List (List UInt8) → σ × Nat
  | [] => (s, i)
  | arg :: args =>
    if arg.head? = some DASH then flagLoop step (step s arg) (i + 1) args else (s, i)

section

variable {σ : Type*} {step : σ → List UInt8 → σ} {flags rest : List (List UInt8)}

theorem flagLoop_eq (hflags : ∀ a ∈ flags, a.head? = some DASH)
    (hrest : ∀ a ∈ rest.head?, a.head? ≠ some DASH) (s : σ) (i : Nat) :
    flagLoop step s i (flags ++ rest) = (flags.foldl step s, i + flags.length) := by
  induction flags generalizing s i with
  | nil =>
    cases rest with
    | nil => rfl
    | cons a rest =>
      rw [List.nil_append, flagLoop, if_neg (hrest a rfl)]
      rfl
  | cons a flags ih =>
    rw [List.cons_append, flagLoop, if_pos (hflags a List.mem_cons_self),
      ih fun b hb => hflags b (List.mem_cons_of_mem a hb), List.foldl_cons, List.length_cons]
    congr 1
    omega

theorem foldl_forget {α β : Type*} (g : α → β) (s : β) (l : List α) :
    l.foldl (fun _ a => g a) s = (l.getLast?.map g).getD s := by
  induction l generalizing s with
  | nil => rfl
  | cons a l ih =>
    rw [List.foldl_cons, ih]
    cases l with
    | nil => rfl
    | cons b l =>
      rw [List.getLast?_cons_cons, List.getLast?_eq_some_getLast (List.cons_ne_nil b l)]
      rfl

end

end OsProject
