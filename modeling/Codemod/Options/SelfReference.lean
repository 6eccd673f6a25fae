import Codemod.Scope.Chain
import Codemod.Text.Identifier
import Codemod.Text.Reserved

/-!
# Self references

The expression whose `props` member holds a component's properties: `this`, or
a name that stands for it.
-/

namespace Codemod

/-- Whether a text can name the component. -/
def isSelfName (text : String) : Bool :=
  Text.isPlainName text && !Text.isReserved text

/-- The expression that stands for the component. -/
inductive SelfReference where
  | this
  | name (text : String) (isValid : isSelfName text = true)
  deriving DecidableEq

namespace SelfReference

def ofText? (text : String) : Option SelfReference :=
  if text == "this" then some this
  else if isValid : isSelfName text = true then some (name text isValid)
  else none

def text : SelfReference → String
  | this => "this"
  | name text _ => text

def isThis : SelfReference → Bool
  | this => true
  | name _ _ => false

def root : SelfReference → ChainRoot
  | this => .this
  | name text _ => .name text

def props (reference : SelfReference) : MemberChain :=
  ⟨reference.root, ["props"]⟩

end SelfReference

end Codemod
