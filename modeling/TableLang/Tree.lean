/-! Ordered trees with a label at every node, and the two depth-first listings of their labels. -/
namespace TableLang

inductive Tree (α : Type) where
  | node (label : α) (children : List (Tree α))

namespace Tree
variable {α : Type}

def label : Tree α → α
  | node a _ => a

def children : Tree α → List (Tree α)
  | node _ ts => ts

mutual
def preorder : Tree α → List α
  | node a ts => a :: preorderForest ts

def preorderForest : List (Tree α) → List α
  | [] => []
  | t :: ts => preorder t ++ preorderForest ts
end

mutual
def postorder : Tree α → List α
  | node a ts => postorderForest ts ++ [a]

def postorderForest : List (Tree α) → List α
  | [] => []
  | t :: ts => postorder t ++ postorderForest ts
end

mutual
def levels (depth : Nat) : Tree α → List (Nat × α)
  | node a ts => (depth, a) :: levelsForest (depth + 1) ts

def levelsForest (depth : Nat) : List (Tree α) → List (Nat × α)
  | [] => []
  | t :: ts => levels depth t ++ levelsForest depth ts
end

end Tree
end TableLang
