import Codemod.Transform.Basic

/-!
# Bound members

`this.member.bind(this)` becomes `::this.member`.
-/

namespace Codemod.Bind

/-- Whether a node is a member of `this`, reached without an optional step. -/
def isOwnMember : Node → Bool
  | .mk (.member _ false) _ (.mk .thisExpression _ _ :: _) => true
  | .mk (.computedMember false) _ (.mk .thisExpression _ _ :: _) => true
  | .mk (.privateMember false) _ (.mk .thisExpression _ _ :: _) => true
  | _ => false

/-- The member of `this` that a call binds to `this`, by the parts of the call. -/
def boundMember? : (kind : Kind) → (children : List Node) → Option Node
  | .call false, [.mk (.member "bind" false) _ (member :: _),
      .mk .thisExpression _ _] =>
      if isOwnMember member then some member else none
  | .call false, [.mk (.member "bind" false) _ (member :: _),
      .mk .typeArguments _ _, .mk .thisExpression _ _] =>
      if isOwnMember member then some member else none
  | _, _ => none

def edits : Node → List Edit :=
  Node.fold fun kind span children =>
    let own :=
      match boundMember? kind (children.map (·.1)) with
      | some member =>
        [.insert span.start [':', ':'], .delete ⟨member.span.stop, span.stop⟩]
      | none => []
    own ++ children.flatMap (·.2)

end Codemod.Bind

namespace Codemod.Transform

/-- Replace a member bound to `this` by the bind operator. -/
def bindExpression : Transform where
  name := "bind-expression"
  description :=
    "Replace `this.<member>.bind(this)` with the `::this.<member>` bind operator"
  paths := []
  changesModule := false
  plan program _ := ⟨Bind.edits program.root, []⟩

end Codemod.Transform
