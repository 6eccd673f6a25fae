import Codemod.Proofs.Edit.Arrangement
import Codemod.Proofs.Enumeration
import Codemod.Proofs.Tree.Extent
import Codemod.Transform.Bind

/-!
# Bound members as a rewriting of the tree

Two edits are planned for each call that binds a member of `this` to `this`: one
puts the bind operator before it, and one removes what stands behind the member.
This module says what the edits of all calls come to by recursion on the tree
(`rewriting`), at any depth of calls in the keys of other calls.

A call may have type arguments, and what is planned inside them is lost with them
(`erased`).  No other edit is.
-/

namespace Codemod

namespace Node

/-- The nodes of a tree, each before its parts. -/
def preorder : Node → List Node :=
  fold fun kind span children => mk kind span (children.map (·.1)) :: children.flatMap (·.2)

theorem preorder_mk (kind : Kind) (span : Span) (children : List Node) :
    (mk kind span children).preorder = mk kind span children :: children.flatMap preorder := by
  rw [preorder, fold_mk]
  simp [List.flatMap_map, Function.comp_def]

/-- The nodes of a tree are listed once for each place. -/
theorem enumerates_preorder (root : Node) :
    Enumerates (fun place node => root.at? place = some node) root.preorder := by
  induction root using Node.induction with
  | step kind span children ih =>
    have parts := ((Enumerates.positions children).flatMap ih).embed
      (fun index => index.1 :: index.2) (by
        rintro ⟨first, inner⟩ ⟨second, other⟩ _ _ _ _ same
        cases same
        rfl)
    have own : Enumerates
        (fun (place : List Nat) node => place = [] ∧ node = mk kind span children)
        [mk kind span children] :=
      .singleton [] fun _ _ => Iff.rfl
    rw [preorder_mk]
    refine (own.append parts ?_).congr fun place node => ?_
    · rintro place _ _ ⟨rfl, _⟩ ⟨index, isIndex, _⟩
      cases isIndex
    · cases place with
      | nil => simp [eq_comm]
      | cons index rest =>
        rw [at?_cons_eq_some_iff]
        constructor
        · rintro (⟨isNil, _⟩ | ⟨⟨number, inner⟩, isPlace, child, isChild, reached⟩)
          · cases isNil
          · cases isPlace
            exact ⟨child, isChild, reached⟩
        · rintro ⟨child, isChild, reached⟩
          exact Or.inr ⟨(index, rest), rfl, child, isChild, reached⟩

/-- Whether a node of this kind starts with its first part. -/
def startsWithHead (kind : Kind) (span : Span) (children : List Node) : Bool :=
  match kind with
  | .call _ => children.head?.all fun callee => callee.span.start == span.start
  | .member _ _ => children.head?.all fun object => object.span.start == span.start
  | _ => true

/-- Whether the calls and members of a tree start with what they are calls and members of. -/
def areHeadsFirst : Node → Bool :=
  fold fun kind span children =>
    startsWithHead kind span (children.map (·.1)) && children.all (·.2)

variable {kind : Kind} {span : Span} {children : List Node}

theorem areHeadsFirst_mk : (mk kind span children).areHeadsFirst = true ↔
      startsWithHead kind span children = true ∧
        ∀ child ∈ children, child.areHeadsFirst = true := by
  simp [areHeadsFirst, Function.comp_def]

end Node

namespace Bind

open Edit

/-! ## Calls that bind a member -/

/-- A member of `this` that is reached without an optional step. -/
inductive OwnMember : Node → Prop
  | named {property : String} {span inner : Span} {parts names : List Node} :
      OwnMember (.mk (.member property false) span (.mk .thisExpression inner parts :: names))
  | computed {span inner : Span} {parts keys : List Node} :
      OwnMember (.mk (.computedMember false) span (.mk .thisExpression inner parts :: keys))
  | hidden {span inner : Span} {parts names : List Node} :
      OwnMember (.mk (.privateMember false) span (.mk .thisExpression inner parts :: names))

/-- A call `this.member.bind(this)`, with type arguments before the argument or without. -/
structure Binds (call member : Node) (types : List Node) : Prop where
  isOwn : OwnMember member
  form : ∃ span place inner names parts, call = .mk (.call false) span
    (.mk (.member "bind" false) place (member :: names) :: types ++
      [.mk .thisExpression inner parts])
  areTypes : types = [] ∨ ∃ span arguments, types = [.mk .typeArguments span arguments]

variable {kind : Kind} {span : Span} {children types : List Node} {call member node : Node}

theorem isOwnMember_iff : isOwnMember member = true ↔ OwnMember member := by
  constructor
  · intro holds
    unfold isOwnMember at holds
    split at holds
    · exact .named
    · exact .computed
    · exact .hidden
    · cases holds
  · rintro ⟨⟩ <;> rfl

theorem boundMember?_eq_some_iff (span : Span) : boundMember? kind children = some member ↔
      ∃ types, Binds (.mk kind span children) member types := by
  constructor
  · intro isBound
    unfold boundMember? at isBound
    split at isBound
    · next place member names inner parts =>
      simp only [Option.ite_none_right_eq_some, Option.some.injEq] at isBound
      obtain ⟨isOwn, rfl⟩ := isBound
      exact ⟨[], isOwnMember_iff.1 isOwn, ⟨_, _, _, _, _, rfl⟩, Or.inl rfl⟩
    · next place member names typeSpan arguments inner parts =>
      simp only [Option.ite_none_right_eq_some, Option.some.injEq] at isBound
      obtain ⟨isOwn, rfl⟩ := isBound
      exact ⟨[.mk .typeArguments typeSpan arguments], isOwnMember_iff.1 isOwn,
        ⟨_, _, _, _, _, rfl⟩, Or.inr ⟨_, _, rfl⟩⟩
    · cases isBound
  · rintro ⟨types, isOwn, ⟨_, _, _, _, _, same⟩, areTypes⟩
    cases same
    rcases areTypes with rfl | ⟨_, _, rfl⟩ <;> simp [boundMember?, isOwnMember_iff.2 isOwn]

/-- The member that a call binds, if it binds one. -/
def member? (node : Node) : Option Node :=
  boundMember? node.kind node.children

theorem member?_eq_some_iff : member? call = some member ↔ ∃ types, Binds call member types := by
  obtain ⟨kind, span, children⟩ := call
  exact boundMember?_eq_some_iff span

/-- The two edits for a call and the member that it binds. -/
def ownEdits (call : Node × Node) : List Edit :=
  [.insert call.1.span.start [':', ':'], .delete ⟨call.2.span.stop, call.1.span.stop⟩]

/-- The calls of a tree that bind a member, with the member, in the order of the walk. -/
def calls (root : Node) : List (Node × Node) :=
  root.preorder.filterMap fun node => (member? node).map (node, ·)

theorem edits_mk (kind : Kind) (span : Span) (children : List Node) :
    edits (.mk kind span children) =
      ((member? (.mk kind span children)).toList.flatMap fun member =>
        ownEdits (.mk kind span children, member)) ++ children.flatMap edits := by
  rw [edits, Node.fold_mk, member?]
  simp only [List.map_map, Function.comp_def, List.map_id', List.flatMap_map, Node.kind_mk,
    Node.children_mk]
  cases boundMember? kind children with
  | none => rfl
  | some member => rfl

/-- The edits of a tree are the two edits of each call that binds a member. -/
theorem edits_eq (root : Node) : edits root = (calls root).flatMap ownEdits := by
  induction root using Node.induction with
  | step kind span children ih =>
    rw [edits_mk, calls, Node.preorder_mk, List.filterMap_cons, List.filterMap_flatMap,
      List.flatMap_congr ih]
    cases member? (.mk kind span children) with
    | none => simp [calls, List.flatMap_assoc]
    | some member => simp [calls, List.flatMap_assoc]

theorem enumerates_calls (root : Node) :
    Enumerates (fun place (call : Node × Node) => root.at? place = some call.1 ∧
      ∃ types, Binds call.1 call.2 types) (calls root) := by
  refine (root.enumerates_preorder.filterMap _).congr fun place call => ?_
  obtain ⟨node, member⟩ := call
  simp only [Option.map_eq_some_iff, Prod.mk.injEq, ← member?_eq_some_iff]
  constructor
  · rintro ⟨_, reached, _, isMember, rfl, rfl⟩
    exact ⟨reached, isMember⟩
  · rintro ⟨reached, isMember⟩
    exact ⟨node, reached, member, isMember, rfl, rfl⟩

/-! ## Rewriting along the tree -/

/--
A rewriting of trees by recursion: a call that binds a member becomes the bind
operator and what the member becomes, and any other node keeps its own text
around what its parts become.
-/
structure IsRewriting (source : List Char) (rewrite : Node → List Char) : Prop where
  bound : ∀ {call member types}, Binds call member types →
    rewrite call = [':', ':'] ++ rewrite member
  kept : ∀ {node}, (∀ member types, ¬ Binds node member types) →
    rewrite node = Text.fill source node.span.start node.span.stop
      (node.children.map fun child => (child.span, rewrite child))

/-- What becomes of a node. -/
structure Rewriting where
  /-- The new text of the node. -/
  text : List Char
  /-- The new text of its first part. -/
  front : List Char

/-- What becomes of a node whose parts have been rewritten. -/
def rewriteNode (source : List Char) (kind : Kind) (span : Span)
    (children : List (Node × Rewriting)) : Rewriting where
  text :=
    match boundMember? kind (children.map (·.1)) with
    | some _ => [':', ':'] ++ children.head?.elim [] (·.2.front)
    | none =>
      Text.fill source span.start span.stop
        (children.map fun child => (child.1.span, child.2.text))
  front := children.head?.elim [] (·.2.text)

/-- What becomes of a tree. -/
def rewriting (source : List Char) : Node → Rewriting :=
  Node.fold (rewriteNode source)

/-- The edits that are planned in the type arguments of calls that bind a member. -/
def erased : Node → List Edit :=
  Node.fold fun kind _ children =>
    let isBound := (boundMember? kind (children.map (·.1))).isSome
    children.flatMap fun child =>
      if isBound && child.1.kind == .typeArguments then edits child.1 else child.2

section Equations

variable {source : List Char}

theorem front_rewriting (source : List Char) (kind : Kind) (span : Span) (first : Node)
    (others : List Node) :
    (rewriting source (.mk kind span (first :: others))).front = (rewriting source first).text := by
  rw [rewriting, Node.fold_mk]
  rfl

/-- A node that binds nothing keeps its text around its parts. -/
theorem text_of_unbound (unbound : boundMember? kind children = none) :
    (rewriting source (.mk kind span children)).text = Text.fill source span.start span.stop
        (children.map fun child => (child.span, (rewriting source child).text)) := by
  rw [rewriting, Node.fold_mk]
  simp [rewriteNode, Function.comp_def, unbound]

/-- A call that binds a member becomes the bind operator and what the member becomes. -/
theorem Binds.text_eq (binds : Binds call member types) :
    (rewriting source call).text = [':', ':'] ++ (rewriting source member).text := by
  have isMember := member?_eq_some_iff.2 ⟨types, binds⟩
  obtain ⟨span, place, inner, names, parts, rfl⟩ := binds.form
  rw [member?, Node.kind_mk, Node.children_mk] at isMember
  have front := front_rewriting source (.member "bind" false) place member names
  rw [rewriting, Node.fold_mk]
  simp only [rewriteNode, List.map_map, Function.comp_def, List.map_id', isMember]
  exact congrArg ([':', ':'] ++ ·) front

theorem isRewriting_rewriting (source : List Char) :
    IsRewriting source fun node => (rewriting source node).text where
  bound := Binds.text_eq
  kept := by
    rintro ⟨kind, span, children⟩ unbound
    refine text_of_unbound (Option.eq_none_iff_forall_ne_some.2 fun member isBound => ?_)
    obtain ⟨types, binds⟩ := (boundMember?_eq_some_iff span).1 isBound
    exact unbound member types binds

/-- The two equations of a rewriting determine it. -/
theorem IsRewriting.unique {first second : Node → List Char} (isFirst : IsRewriting source first)
    (isSecond : IsRewriting source second) : first = second := by
  have same (node : Node) : ∀ path inner, node.at? path = some inner →
      first inner = second inner := by
    induction node using Node.induction with
    | step kind span children ih =>
      intro path inner reached
      cases path with
      | cons index path =>
        obtain ⟨child, isChild, reached⟩ := Node.at?_cons_eq_some_iff.1 reached
        exact ih child (List.mem_of_getElem? isChild) path inner reached
      | nil =>
        rw [Node.at?_nil, Option.some.injEq] at reached
        subst reached
        by_cases isBound : ∃ member types, Binds (.mk kind span children) member types
        · obtain ⟨member, types, binds⟩ := isBound
          rw [isFirst.bound binds, isSecond.bound binds]
          obtain ⟨_, place, _, names, _, isCall⟩ := binds.form
          cases isCall
          rw [ih (.mk (.member "bind" false) place (member :: names))
            List.mem_cons_self [0] member rfl]
        · have unbound : ∀ member types, ¬ Binds (.mk kind span children) member types :=
            fun member types binds => isBound ⟨member, types, binds⟩
          rw [isFirst.kept unbound, isSecond.kept unbound]
          congr 1
          refine List.map_congr_left fun child isChild => ?_
          rw [ih child isChild [] child (Node.at?_nil child)]
  exact funext fun node => same node [] node (Node.at?_nil node)

theorem erased_mk (kind : Kind) (span : Span) (children : List Node) :
    erased (.mk kind span children) = children.flatMap fun child =>
      if (boundMember? kind children).isSome && child.kind == .typeArguments then edits child
      else erased child := by
  rw [erased, Node.fold_mk]
  simp only [List.map_map, Function.comp_def, List.map_id', List.flatMap_map]

theorem boundMember?_eq_none (notCall : ∀ isOptional, kind ≠ .call isOptional) :
    boundMember? kind children = none := by
  unfold boundMember?
  split
  · exact absurd rfl (notCall false)
  · exact absurd rfl (notCall false)
  · rfl

theorem edits_of_unbound (unbound : boundMember? kind children = none) :
    edits (.mk kind span children) = children.flatMap edits := by
  rw [edits_mk, member?, Node.kind_mk, Node.children_mk, unbound]
  rfl

theorem erased_of_unbound (unbound : boundMember? kind children = none) :
    erased (.mk kind span children) = children.flatMap erased := by
  simp [erased_mk, unbound]

/-- Nothing is planned for a node without parts. -/
theorem edits_of_leaf (leaf : node.children = []) : edits node = [] := by
  obtain ⟨kind, span, children⟩ := node
  obtain rfl : children = [] := leaf
  have unbound : boundMember? kind [] = none := by
    cases isBound : boundMember? kind [] with
    | none => rfl
    | some member =>
      obtain ⟨types, binds⟩ := (boundMember?_eq_some_iff span).1 isBound
      obtain ⟨_, _, _, _, _, same⟩ := binds.form
      cases same
  rw [edits_of_unbound unbound]
  rfl

theorem erased_of_leaf (leaf : node.children = []) : erased node = [] := by
  obtain ⟨kind, span, children⟩ := node
  obtain rfl : children = [] := leaf
  rw [erased_mk]
  rfl

end Equations

/-! ## How a call stands in the text -/

/-- How a call that binds a member stands in a text. -/
structure Stands (call member : Node) (types : List Node) : Prop where
  starts : member.span.start = call.span.start
  notEmpty : member.span.start < member.span.stop
  ends : member.span.stop < call.span.stop
  typed : ∀ type ∈ types, member.span.stop < type.span.start ∧ type.span.stop ≤ call.span.stop

theorem Binds.stands (binds : Binds call member types) (nested : call.isNested = true)
    (headsFirst : call.areHeadsFirst = true) : Stands call member types := by
  obtain ⟨span, place, inner, names, parts, rfl⟩ := binds.form
  have calleeNested := Node.isNested_of_mem_children nested List.mem_cons_self
  obtain ⟨⟨_, notEmpty, shorter⟩, _⟩ := Node.own_of_member calleeNested
  have ordered := Node.ordered_children nested
  rw [Node.children_mk, List.cons_append, List.pairwise_cons] at ordered
  have calleeInside := Span.contains_iff.1 (Node.contains_of_mem_children nested List.mem_cons_self)
  have first := Node.areHeadsFirst_mk.1 headsFirst
  have second := Node.areHeadsFirst_mk.1 (first.2 _ List.mem_cons_self)
  simp only [Node.startsWithHead, List.cons_append, List.head?_cons, Option.all_some,
    beq_iff_eq, Node.span_mk] at first second
  refine ⟨second.1.trans first.1, notEmpty, Nat.lt_of_lt_of_le shorter calleeInside.2, ?_⟩
  intro type isType
  have behind := ordered.1 type (List.mem_append_left _ isType)
  have within := Span.contains_iff.1 (Node.contains_of_mem_children nested
    (List.mem_append_left _ (List.mem_cons_of_mem _ isType)))
  exact ⟨Nat.lt_of_lt_of_le shorter behind, within.2⟩

/-- Besides the member and the type arguments, a call that binds a member has only leaves. -/
theorem Binds.leaves {place inner : Span} {names parts : List Node}
    (nested : (Node.mk (.call false) span (.mk (.member "bind" false) place (member :: names) ::
      types ++ [.mk .thisExpression inner parts])).isNested = true) :
    (∀ name ∈ names, name.children = []) ∧ parts = [] := by
  have callee := Node.isNested_of_mem_children nested List.mem_cons_self
  have argument := Node.isNested_of_mem_children nested
    (List.mem_append_right _ (List.mem_singleton.2 rfl))
  exact ⟨(Node.own_of_member callee).2, List.isEmpty_iff.1 (Node.own_of_isNested argument)⟩

theorem Binds.edits_eq (binds : Binds call member types) (nested : call.isNested = true) :
    edits call = ownEdits (call, member) ++ (edits member ++ types.flatMap edits) := by
  have isMember := member?_eq_some_iff.2 ⟨types, binds⟩
  obtain ⟨span, place, inner, names, parts, rfl⟩ := binds.form
  obtain ⟨leaves, noParts⟩ := leaves nested
  have callee : edits (.mk (.member "bind" false) place (member :: names)) = edits member := by
    rw [edits_of_unbound (boundMember?_eq_none fun _ => Kind.noConfusion), List.flatMap_cons,
      List.flatMap_eq_nil_iff.2 fun name isName => edits_of_leaf (leaves name isName),
      List.append_nil]
  have argument : edits (.mk .thisExpression inner parts) = [] := edits_of_leaf noParts
  rw [edits_mk, isMember]
  simp [callee, argument]

theorem Binds.erased_eq (binds : Binds call member types) (nested : call.isNested = true) :
    erased call = erased member ++ types.flatMap edits := by
  have isMember := member?_eq_some_iff.2 ⟨types, binds⟩
  obtain ⟨span, place, inner, names, parts, rfl⟩ := binds.form
  obtain ⟨leaves, noParts⟩ := leaves nested
  have callee : erased (.mk (.member "bind" false) place (member :: names)) = erased member := by
    rw [erased_of_unbound (boundMember?_eq_none fun _ => Kind.noConfusion), List.flatMap_cons,
      List.flatMap_eq_nil_iff.2 fun name isName => erased_of_leaf (leaves name isName),
      List.append_nil]
  have argument : erased (.mk .thisExpression inner parts) = [] := erased_of_leaf noParts
  rw [member?, Node.kind_mk, Node.children_mk] at isMember
  rw [erased_mk, isMember]
  rcases binds.areTypes with rfl | ⟨typeSpan, arguments, rfl⟩ <;> simp [callee, argument]

/-- Nothing is planned at the end of a node. -/
theorem start_lt_stop_of_mem_edits {edit : Edit} (nested : node.isNested = true)
    (headsFirst : node.areHeadsFirst = true) (isPlanned : edit ∈ edits node) :
    edit.start < node.span.stop := by
  induction node using Node.induction with
  | step kind span children ih =>
    rw [edits_mk, List.mem_append] at isPlanned
    rcases isPlanned with isOwn | isInner
    · obtain ⟨member, isMember, isEdit⟩ := List.mem_flatMap.1 isOwn
      obtain ⟨types, binds⟩ := member?_eq_some_iff.1 (Option.mem_toList.1 isMember)
      have stands := binds.stands nested headsFirst
      simp only [ownEdits, List.mem_cons, List.not_mem_nil, or_false] at isEdit
      rcases isEdit with rfl | rfl
      · have room := Nat.lt_trans stands.notEmpty stands.ends
        rwa [stands.starts] at room
      · exact stands.ends
    · obtain ⟨child, isChild, isEdit⟩ := List.mem_flatMap.1 isInner
      have earlier := ih child isChild
        (Node.isNested_of_mem_children nested isChild)
        ((Node.areHeadsFirst_mk.1 headsFirst).2 child isChild) isEdit
      exact Nat.lt_of_lt_of_le earlier
        (Span.contains_iff.1 (Node.contains_of_mem_children nested isChild)).2

/-! ## Edits along the tree -/

section Assembly

variable {source : List Char}

/-- The edits planned for a node make its new text, and the erased ones are lost. -/
def Agrees (source : List Char) (node : Node) : Prop :=
  Arranges source node.span.start node.span.stop (edits node) (rewriting source node).text
    (erased node)

/-- A node that binds nothing keeps its text around its parts. -/
theorem agrees_of_unbound (nested : (Node.mk kind span children).isNested = true)
    (inText : (Node.mk kind span children).isInText source = true)
    (agree : ∀ child ∈ children, Agrees source child)
    (unbound : boundMember? kind children = none) : Agrees source (.mk kind span children) := by
  have filled := Arranges.fill children Node.span (Node.isRange_span nested inText)
    (fun child isChild => Span.contains_iff.1 (Node.contains_of_mem_children nested isChild))
    (Node.ordered_children nested) agree
  rw [Agrees, edits_of_unbound unbound, text_of_unbound unbound, erased_of_unbound unbound]
  exact filled

/-- A call that binds a member becomes the bind operator and the rewritten member. -/
theorem agrees_of_binds (binds : Binds call member types) (nested : call.isNested = true)
    (inText : call.isInText source = true) (headsFirst : call.areHeadsFirst = true)
    (ofMember : Agrees source member)
    (memberEarly : ∀ edit ∈ edits member, edit.start < member.span.stop)
    (ofTypes : ∀ type ∈ types, Agrees source type)
    (typesEarly : ∀ type ∈ types, ∀ edit ∈ edits type, edit.start < type.span.stop) :
    Agrees source call := by
  have stands := binds.stands nested headsFirst
  have range := Node.isRange_span nested inText
  have opened : Arranges source call.span.start call.span.start
      [.insert call.span.start [':', ':']] [':', ':'] [] :=
    Arranges.replaced (show IsRange source (Edit.insert call.span.start [':', ':']).span from
      ⟨Nat.le_refl _, Nat.le_trans range.forward range.inside, range.startBoundary,
        range.startBoundary⟩)
  -- What is planned in the type arguments lies inside the range that is removed.
  have covered : ∀ edit ∈ types.flatMap edits,
      member.span.stop < edit.start ∧ edit.start < call.span.stop ∧ edit.start ≤ edit.stop ∧
        edit.stop ≤ call.span.stop := by
    intro edit isEdit
    obtain ⟨type, isType, isEdit⟩ := List.mem_flatMap.1 isEdit
    have bounds := (ofTypes type isType).inside edit isEdit
    have early := typesEarly type isType edit isEdit
    have typed := stands.typed type isType
    omega
  have removed : IsRange source (Edit.delete ⟨member.span.stop, call.span.stop⟩).span :=
    ⟨Nat.le_of_lt stands.ends, range.inside, ofMember.range.stopBoundary, range.stopBoundary⟩
  have closed := Arranges.erased removed covered
  rw [Agrees, stands.starts] at ofMember
  have whole := (opened.append ofMember).append closed
  rw [Agrees, binds.edits_eq nested, binds.text_eq, binds.erased_eq nested]
  rw [List.nil_append] at whole
  have text_eq : [':', ':'] ++ (rewriting source member).text ++
      (Edit.delete ⟨member.span.stop, call.span.stop⟩).text =
        [':', ':'] ++ (rewriting source member).text := List.append_nil _
  rw [text_eq] at whole
  apply whole.reorder
  -- The removal is planned before the edits of the member and carried out behind them.
  have swapped : Alike ([.delete ⟨member.span.stop, call.span.stop⟩] ++ edits member)
      (edits member ++ [.delete ⟨member.span.stop, call.span.stop⟩]) := by
    apply Alike.swap
    intro edit isRemoval other isOther same
    obtain rfl := List.mem_singleton.1 isRemoval
    have starts : member.span.stop = other.start := congrArg Span.start same
    exact absurd (memberEarly other isOther) (starts ▸ Nat.lt_irrefl _)
  have moved := (Alike.refl [Edit.insert call.span.start [':', ':']]).append
    (swapped.append (.refl (types.flatMap edits)))
  simp only [ownEdits, List.append_assoc, List.cons_append, List.nil_append] at moved ⊢
  exact moved

/-- What is planned for a tree agrees with its rewriting, everywhere in the tree. -/
theorem agrees_at (nested : node.isNested = true) (inText : node.isInText source = true)
    (headsFirst : node.areHeadsFirst = true) {path : List Nat} {inner : Node}
    (reached : node.at? path = some inner) : Agrees source inner := by
  induction node using Node.induction generalizing path inner with
  | step kind span children ih =>
    have headsBelow := (Node.areHeadsFirst_mk.1 headsFirst).2
    have below (child : Node) (isChild : child ∈ children) (path : List Nat) (inner : Node)
        (reached : child.at? path = some inner) : Agrees source inner :=
      ih child isChild (Node.isNested_of_mem_children nested isChild)
        (Node.isInText_of_mem_children inText isChild) (headsBelow child isChild) reached
    cases path with
    | cons index path =>
      obtain ⟨child, isChild, reached⟩ := Node.at?_cons_eq_some_iff.1 reached
      exact below child (List.mem_of_getElem? isChild) path inner reached
    | nil =>
      rw [Node.at?_nil, Option.some.injEq] at reached
      subst reached
      cases isBound : boundMember? kind children with
      | none =>
        exact agrees_of_unbound nested inText
          (fun child isChild => below child isChild [] child (Node.at?_nil child)) isBound
      | some member =>
        obtain ⟨types, binds⟩ := (boundMember?_eq_some_iff span).1 isBound
        obtain ⟨_, place, argument, names, parts, same⟩ := binds.form
        cases same
        have ofType {type : Node} (isType : type ∈ types) :
            type ∈ Node.mk (.member "bind" false) place (member :: names) :: types ++
              [.mk .thisExpression argument parts] :=
          List.mem_append_left _ (List.mem_cons_of_mem _ isType)
        have calleeNested := Node.isNested_of_mem_children nested List.mem_cons_self
        have calleeHeads := headsBelow _ List.mem_cons_self
        refine agrees_of_binds binds nested inText headsFirst
          (below _ List.mem_cons_self [0] member rfl) (fun edit => ?_)
          (fun type isType => below type (ofType isType) [] type (Node.at?_nil type))
          fun type isType edit => ?_
        · exact start_lt_stop_of_mem_edits
            (Node.isNested_of_mem_children calleeNested List.mem_cons_self)
            ((Node.areHeadsFirst_mk.1 calleeHeads).2 member List.mem_cons_self)
        · exact start_lt_stop_of_mem_edits (Node.isNested_of_mem_children nested (ofType isType))
            (headsBelow type (ofType isType))

end Assembly

/-- Nothing is erased in a tree in which no call that binds a member has type arguments. -/
theorem erased_eq_nil (untyped : ∀ place call member types, node.at? place = some call →
      Binds call member types → types = []) : erased node = [] := by
  induction node using Node.induction with
  | step kind span children ih =>
    rw [erased_mk, List.flatMap_eq_nil_iff]
    intro child isChild
    obtain ⟨index, isAt⟩ := List.getElem?_of_mem isChild
    have below := ih child isChild fun place call member types reached =>
      untyped (index :: place) call member types (Node.at?_of_getElem? isAt reached)
    split
    · next isTyped =>
      simp only [Bool.and_eq_true, Option.isSome_iff_exists, beq_iff_eq] at isTyped
      obtain ⟨⟨member, isBound⟩, isTypes⟩ := isTyped
      obtain ⟨types, binds⟩ := (boundMember?_eq_some_iff span).1 isBound
      obtain rfl := untyped [] _ member types (Node.at?_nil _) binds
      obtain ⟨_, _, _, _, _, same⟩ := binds.form
      cases same
      simp only [List.cons_append, List.nil_append, List.mem_cons, List.not_mem_nil,
        or_false] at isChild
      rcases isChild with rfl | rfl <;> cases isTypes
    · exact below

/--
Two edits are planned for each call that binds a member of `this` to `this`, and
none besides.  Carried out together, the edits of all calls make of a text what
its tree becomes by recursion.  The edits that are dropped are those planned in
the type arguments of such calls, and there are none of them unless one of the
calls has type arguments.
-/
theorem bound_members_rewrite_the_tree (program : Program) (options : TransformOptions)
    (whole : program.root.span = ⟨0, Text.byteLength program.source⟩)
    (nested : program.root.isNested = true)
    (inText : program.root.isInText program.source = true)
    (headsFirst : program.root.areHeadsFirst = true) :
    (∃ calls : List (Node × Node),
      Enumerates (fun place (call : Node × Node) => program.root.at? place = some call.1 ∧
        ∃ types, Binds call.1 call.2 types) calls ∧
      (Transform.bindExpression.plan program options).edits = calls.flatMap ownEdits) ∧
    (∃! rewrite, IsRewriting program.source rewrite) ∧
    (∀ rewrite, IsRewriting program.source rewrite →
      (applyEdits program.source (Transform.bindExpression.plan program options).edits).text =
        rewrite program.root) ∧
    (applyEdits program.source
      (Transform.bindExpression.plan program options).edits).dropped.Perm
        (erased program.root) ∧
    ((∀ place call member types, program.root.at? place = some call →
        Binds call member types → types = []) →
      (applyEdits program.source
        (Transform.bindExpression.plan program options).edits).dropped = []) := by
  have agrees : Agrees program.source program.root :=
    agrees_at nested inText headsFirst (Node.at?_nil program.root)
  rw [Agrees, whole] at agrees
  obtain ⟨text_eq, isLost⟩ := agrees.applyEdits
  have isRewriting := isRewriting_rewriting program.source
  refine ⟨⟨calls program.root, enumerates_calls program.root, edits_eq program.root⟩,
    ⟨_, isRewriting, fun _ isOther => isOther.unique isRewriting⟩, fun rewrite isOther => ?_,
    isLost, fun untyped => ?_⟩
  · rw [isOther.unique isRewriting]
    exact text_eq
  · rw [erased_eq_nil untyped] at isLost
    exact isLost.eq_nil

/-- Members that are bound in the keys of others, and in an argument. -/
def nestedKeys : List Char :=
  "f(this[this[a.b(this.c.bind(this))].bind(this)].bind(this), this.d.bind(e));".toList

theorem bound_members_rewrite_the_tree_in_nestedKeys :
    ∃ program, parseProgram (.ofPath "a.js") nestedKeys = some program ∧
      program.root.isNested = true ∧ program.root.areHeadsFirst = true ∧
      (applyEdits program.source
        (Transform.bindExpression.plan program .standard).edits) =
        ⟨"f(::this[::this[a.b(::this.c)]], this.d.bind(e));".toList, []⟩ := by
  obtain ⟨program, parsed, whole, nested, inText, headsFirst, text_eq, noneErased⟩ :
      ∃ program ∈ parseProgram (.ofPath "a.js") nestedKeys,
      program.root.span = ⟨0, Text.byteLength program.source⟩ ∧
        program.root.isNested = true ∧ program.root.isInText program.source = true ∧
        program.root.areHeadsFirst = true ∧
        (rewriting program.source program.root).text =
          "f(::this[::this[a.b(::this.c)]], this.d.bind(e));".toList ∧
        erased program.root = [] := by
    decide +kernel
  obtain ⟨_, _, isText, isLost, _⟩ :=
    bound_members_rewrite_the_tree program .standard whole nested inText headsFirst
  have isText := isText _ (isRewriting_rewriting program.source)
  rw [text_eq] at isText
  rw [noneErased] at isLost
  refine ⟨program, parsed, nested, headsFirst, ?_⟩
  rw [← isText, ← isLost.eq_nil]

/-- A call with type arguments, in which another call binds a member. -/
def typedBinding : List Char :=
  "f(this.x.bind<{ [this.y.bind(this)]: string }>(this));".toList

/-- The call in the type arguments is planned to be rewritten and is lost with them. -/
theorem typed_binding_drops_inner_binding :
    ∃ program, parseProgram (.ofPath "a.ts") typedBinding = some program ∧
      program.root.span = ⟨0, Text.byteLength program.source⟩ ∧
      program.root.isNested = true ∧ program.root.isInText program.source = true ∧
      program.root.areHeadsFirst = true ∧
      applyEdits program.source (Transform.bindExpression.plan program .standard).edits =
        ⟨"f(::this.x);".toList, [.insert 17 [':', ':'], .delete ⟨23, 34⟩]⟩ := by
  change ∃ program ∈ parseProgram (.ofPath "a.ts") typedBinding, _
  decide +kernel

end Bind

end Codemod
