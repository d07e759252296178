import RouteTable.Text

namespace RouteTable

/-- Empty, or a first tree, given by its label and the forest below it, and the trees after it. One type serves for
sibling lists and for what hangs below a node. -/
inductive Forest (α : Type) where
  | nil
  | cons (label : α) (below after : Forest α)
deriving DecidableEq, Repr, Inhabited

namespace Forest

variable {α β : Type}

def map (f : α → β) : Forest α → Forest β
  | nil => nil
  | cons x below after => cons (f x) (map f below) (map f after)

def roots : Forest α → List α
  | nil => []
  | cons x _ after => x :: roots after

def labels : Forest α → List α
  | nil => []
  | cons x below after => x :: (labels below ++ labels after)

def size : Forest α → Nat
  | nil => 0
  | cons _ below after => size below + size after + 1

def isEmpty : Forest α → Bool
  | nil => true
  | cons _ _ _ => false

def find? (p : α → Bool) : Forest α → Option (α × Forest α)
  | nil => none
  | cons x below after => if p x then some (x, below) else find? p after

def below? (p : α → Bool) (f : Forest α) : Option (Forest α) := (find? p f).map Prod.snd

def modifyBelow (p : α → Bool) (f : Forest α → Forest α) : Forest α → Forest α
  | nil => nil
  | cons x below after =>
    if p x then cons x (f below) after else cons x below (modifyBelow p f after)

/-- Puts a tree in front of the first root that comes after its own, else at the end. -/
def place (cmp : α → α → Ordering) (x : α) (below : Forest α) : Forest α → Forest α
  | nil => cons x below nil
  | cons y below' after =>
    if cmp x y = .lt then cons x below (cons y below' after)
    else cons y below' (place cmp x below after)

def placeAll (cmp : α → α → Ordering) (sorted : Forest α) : Forest α → Forest α
  | nil => sorted
  | cons x below after => placeAll cmp (place cmp x below sorted) after

/-- The outermost sibling list in order; trees whose roots tie keep their places. -/
def sort (cmp : α → α → Ordering) (f : Forest α) : Forest α := placeAll cmp nil f

theorem length_labels (f : Forest α) : f.labels.length = f.size := by
  induction f with
  | nil => rfl
  | cons x below after ihb iha => simp [labels, size, ihb, iha]

theorem roots_place (cmp : α → α → Ordering) (x : α) (below f : Forest α) :
    (place cmp x below f).roots.Perm (x :: f.roots) := by
  induction f with
  | nil => simp [place, roots]
  | cons y below' after _ ih =>
      rw [place]
      split
      · simp [roots]
      · simpa [roots] using (ih.cons y).trans (List.Perm.swap x y after.roots)

end Forest

end RouteTable
