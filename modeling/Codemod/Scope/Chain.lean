import Codemod.Text.Search
import Codemod.Tree.Node

/-!
# Member chains

A chain is a path of plain members such as `this.props.name`.  An expression
has a chain only if every step of it is a named member that is neither
optional nor computed nor private, and nothing stands in parentheses.
-/

namespace Codemod

/-- What a member chain starts from. -/
inductive ChainRoot where
  | this
  | name (text : String)
  deriving DecidableEq, Repr

structure MemberChain where
  root : ChainRoot
  path : List String
  deriving DecidableEq, Repr

namespace ChainRoot

def text : ChainRoot → String
  | this => "this"
  | name text => text

def ofText (text : String) : ChainRoot :=
  if text == "this" then this else name text

end ChainRoot

namespace MemberChain

def push (chain : MemberChain) (member : String) : MemberChain :=
  ⟨chain.root, chain.path ++ [member]⟩

/-- Whether a chain starts from a root and follows exactly a path. -/
def isPath (chain : MemberChain) (root : ChainRoot) (path : List String) : Bool :=
  chain.root == root && chain.path.length == path.length &&
    (chain.path.zip path).all fun pair => pair.1 == pair.2

def text (chain : MemberChain) : String :=
  String.intercalate "." (chain.root.text :: chain.path)

/-- The chain that a text with points spells. -/
def ofText (text : String) : MemberChain :=
  match Text.split '.' text with
  | [] => ⟨.ofText "", []⟩
  | root :: path => ⟨.ofText root, path⟩

theorem isPath_iff {chain : MemberChain} {root : ChainRoot}
    {path : List String} :
    chain.isPath root path = true ↔ chain = ⟨root, path⟩ := by
  obtain ⟨ownRoot, ownPath⟩ := chain
  simp only [isPath, Bool.and_eq_true, beq_iff_eq, mk.injEq, and_assoc]
  refine and_congr_right fun _ => ?_
  induction ownPath generalizing path with
  | nil => cases path <;> simp
  | cons first rest ih =>
    cases path with
    | nil => simp
    | cons other path =>
      have step := @ih path
      simp only [List.length_cons, Nat.add_right_cancel_iff, List.zip_cons_cons,
        List.all_cons, Bool.and_eq_true, beq_iff_eq, List.cons.injEq] at step ⊢
      constructor
      · rintro ⟨length, same, others⟩
        exact ⟨same, step.1 ⟨length, others⟩⟩
      · rintro ⟨same, others⟩
        obtain ⟨length, equal⟩ := step.2 others
        exact ⟨length, same, equal⟩

end MemberChain

def Node.chain? : Node → Option MemberChain
  | mk .thisExpression _ _ => some ⟨.this, []⟩
  | mk (.reference name) _ _ => some ⟨.name name, []⟩
  | mk (.member property false) _ (object :: _) =>
    (chain? object).map fun chain => chain.push property
  | _ => none

end Codemod
