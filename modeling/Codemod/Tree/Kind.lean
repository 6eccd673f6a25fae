/-!
# Kinds of tree nodes

The kinds of node that a program is made of, for scripts and modules with
embedded markup and type annotations.  A kind carries what the node's children
do not show: names, operators and modifiers.
-/

namespace Codemod

/-- The keyword that introduces a list of variables. -/
inductive VariableKeyword where
  | var
  /-- `let` -/
  | mutable
  /-- `const` -/
  | constant
  /-- `using` -/
  | resource
  /-- `await using` -/
  | awaitedResource
  deriving DecidableEq, Repr

/-- Where a function written with the full function form stands. -/
inductive FunctionRole where
  | declaration
  | expression
  /-- The function of a method, a getter or a setter. -/
  | method
  deriving DecidableEq, Repr

/-- The modifiers of a function. -/
structure FunctionForm where
  role : FunctionRole
  isAsync : Bool
  isGenerator : Bool
  deriving DecidableEq, Repr

/-- How a property of an object literal is written. -/
inductive PropertyForm where
  /-- `key: value` -/
  | pair
  /-- A name that is both key and value. -/
  | shorthand
  /-- A method, a getter or a setter. -/
  | method
  deriving DecidableEq, Repr

inductive UnaryOperator where
  | minus
  | plus
  | negation
  | complement
  | typeOf
  | discard
  | delete
  deriving DecidableEq, Repr

/-- The forms of a type that are told apart. -/
inductive TypeForm where
  | keyword
  | literal
  | array
  | tuple
  | optional
  | rest
  | namedMember
  | union
  | intersection
  | parenthesized
  | operator
  | indexedAccess
  | conditional
  | infer
  | function
  | constructor
  | object
  | mapped
  | template
  | query
  | importType
  | predicate
  | reference
  deriving DecidableEq, Repr

inductive SignatureForm where
  | property
  | method
  | call
  | construct
  | index
  deriving DecidableEq, Repr

/-- What a node of the tree is. -/
inductive Kind where
  -- Whole texts
  | program
  | hashbang
  | directive
  -- Names
  /-- A name that stands for a declared value or type. -/
  | reference (name : String)
  /-- A name being declared. -/
  | binding (name : String)
  /-- A name that is only a label of a property, a module item or a type. -/
  | name (text : String)
  | privateName (text : String)
  | label (text : String)
  -- Literals
  | nullLiteral
  | booleanLiteral
  | numberLiteral
  | bigintLiteral
  | regexLiteral
  | stringLiteral (value : String)
  | template
  | templatePart
  -- Expressions
  | thisExpression
  | superExpression
  | array
  | hole
  | object
  | property (form : PropertyForm) (isComputed : Bool)
  | spread
  | function (form : FunctionForm)
  | arrow (isAsync : Bool) (hasExpressionBody : Bool)
  | member (property : String) (isOptional : Bool)
  | computedMember (isOptional : Bool)
  | privateMember (isOptional : Bool)
  | call (isOptional : Bool)
  | construction
  | importCall
  | metaProperty (target property : String)
  | unary (operator : UnaryOperator)
  | update (operator : String)
  | binary (operator : String)
  | privateIn
  | conditional
  | assignment (operator : String)
  | sequence
  | awaitExpression
  | yieldExpression (isDelegate : Bool)
  | parenthesized
  | chain
  | taggedTemplate
  -- Parts of functions
  | parameters
  | thisParameter
  | parameter (isOptional : Bool)
  | functionBody
  -- Classes
  | classDefinition (isDeclaration : Bool)
  | heritage
  | implements
  | classBody
  | method (isStatic : Bool) (isComputed : Bool)
  | field (isStatic : Bool) (isComputed : Bool)
  | accessorField (isStatic : Bool) (isComputed : Bool)
  | staticBlock
  | decorator
  -- Patterns that declare
  | objectPattern
  | patternProperty (isShorthand : Bool) (isComputed : Bool)
  | arrayPattern
  | patternDefault
  | rest
  -- Patterns that assign
  /-- A reference or member that is assigned to. -/
  | target
  | objectTarget
  | targetProperty (isComputed : Bool)
  | targetShorthand
  | arrayTarget
  | targetDefault
  | targetRest
  -- Statements
  | block
  | emptyStatement
  | expressionStatement
  | variableList (keyword : VariableKeyword)
  | declarator
  | ifStatement
  | doWhile
  | whileStatement
  | forStatement
  | forIn
  | forOf
  | continueStatement
  | breakStatement
  | returnStatement
  | withStatement
  | switchStatement
  | switchCase (isDefault : Bool)
  | labeled
  | throwStatement
  | tryStatement
  | catchClause
  | catchParameter
  | debuggerStatement
  -- Modules
  | importDeclaration (source : String) (isType : Bool)
  | importSpecifier
  | importDefault
  | importNamespace
  | attributes
  | exportNamed
  | exportDefault
  | exportAll
  | exportSpecifier
  -- Markup
  | markupElement
  | markupFragment
  | markupOpening
  | markupClosing
  | markupName (text : String)
  | markupNamespaced
  | markupMember
  | markupAttribute
  | markupSpread
  | markupContainer
  | markupEmpty
  | markupSpreadChild
  | markupText
  -- Types
  | typeForm (form : TypeForm)
  | typeAscription
  | typeParameters
  | typeParameter
  | typeArguments
  | qualifiedName
  | signature (form : SignatureForm)
  | asType
  | satisfiesType
  | typeAssertion
  | nonNull
  | instantiation
  | typeAlias
  | interfaceDeclaration
  | interfaceBody
  | interfaceHeritage
  | enumDeclaration
  | enumMember
  | namespaceDeclaration
  | namespaceBody
  | importEquals
  | externalReference
  | exportAssignment
  | namespaceExport
  deriving DecidableEq, Repr

end Codemod
