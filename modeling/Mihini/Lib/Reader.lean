import Mathlib.Data.List.Basic

/-!
# Readers of pieces

A reader takes items until it has what it wants, and goes on with the next piece when it has not.  What
it takes depends on the items only, not on where they were cut.
-/

namespace Mihini.Lib

variable {σ α β : Type}

/-- What a reader makes of some items: it is done, and `rest` is left; or it has taken all of them. -/
inductive Taken (σ α β : Type) where
  | done (out : List β) (rest : List α)
  | more (out : List β) (next : σ)
  deriving DecidableEq

namespace Taken

def prepend (front : List β) : Taken σ α β → Taken σ α β
  | done out rest => done (front ++ out) rest
  | more out next => more (front ++ out) next

def extend (items : List α) (f : σ → Taken σ α β) : Taken σ α β → Taken σ α β
  | done out rest => done out (rest ++ items)
  | more out next => (f next).prepend out

def joined : Taken σ (List α) β → Taken σ α β
  | done out rest => done out rest.flatten
  | more out next => more out next

end Taken

structure Reader (σ α β : Type) where
  take : σ → List α → Taken σ α β
  take_append : ∀ s xs ys, take s (xs ++ ys) = (take s xs).extend ys fun next => take next ys

namespace Reader

variable (r : Reader σ α β)

/-- Pieces are taken as far as they are wanted.  There is nothing to take of an empty piece. -/
def pull : σ → List (List α) → Taken σ (List α) β
  | s, [] => .more [] s
  | s, [] :: ps => pull s ps
  | s, (a :: p) :: ps =>
    match r.take s (a :: p) with
    | .done out rest => .done out (rest :: ps)
    | .more out next => (pull next ps).prepend out

end Reader

end Mihini.Lib
