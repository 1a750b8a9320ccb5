/-!
# RulePlan.Text.Escape — terminal escape sequences

A text may hold sequences that steer a terminal and take no room. Two families are known: control
sequences, `ESC [` with parameters and one final character, and operating system commands, `ESC ]`
with a text that ends before the next `BEL` or `ESC \` on the same line. Any other escape character
is left alone.
-/

namespace RulePlan.Text.Escape

/-- Whether a character lies between two others. -/
def between (lo hi c : Char) : Bool := lo ≤ c && c ≤ hi

/-- What follows a control sequence, from behind its bracket. -/
def afterControl? (cs : List Char) : Option (List Char) :=
  match (cs.dropWhile (between '0' '?')).dropWhile (between ' ' '/') with
  | c :: rest => if between '@' '~' c then some rest else none
  | [] => none

/-- What follows an operating system command, from behind its bracket. -/
def afterCommand? : List Char → Option (List Char)
  | [] => none
  | '\x07' :: rest => some rest
  | '\x1b' :: '\\' :: rest => some rest
  | c :: rest => if c = '\n' then none else afterCommand? rest

/-- What follows the sequence that a text begins with. -/
def after? : List Char → Option (List Char)
  | '\x1b' :: '[' :: rest => afterControl? rest
  | '\x1b' :: ']' :: rest => afterCommand? rest
  | _ => none

/-- Text without its sequences; `room` bounds the number of steps. -/
def stripFrom : (room : Nat) → List Char → List Char
  | 0, cs => cs
  | _ + 1, [] => []
  | room + 1, c :: cs =>
    match after? (c :: cs) with
    | some rest => stripFrom room rest
    | none => c :: stripFrom room cs

/-- Text without its escape sequences. Every step takes a character, so there are at most as many
steps as characters. -/
def strip (cs : List Char) : List Char := stripFrom cs.length cs

/-- Text without an escape character has no sequences. -/
theorem stripFrom_of_forall_ne (room : Nat) (cs : List Char) (h : ∀ c ∈ cs, c ≠ '\x1b') :
    stripFrom room cs = cs := by
  induction room generalizing cs with
  | zero => rfl
  | succ room ih =>
    cases cs with
    | nil => rfl
    | cons c cs =>
      have hc : after? (c :: cs) = none := by
        have := h c (by simp)
        unfold after?
        split <;> simp_all
      simp [stripFrom, hc, ih cs fun d hd => h d (by simp [hd])]

end RulePlan.Text.Escape
