/-!
# Reserved words

The words that no new binding may be named: keywords, literals, words kept for
strict code and older editions of the language, and the two names with a
meaning inside functions.
-/

namespace Codemod.Text

/-- Words that a binding may not be named. -/
def reservedWords : List String := [
  "break", "case", "catch", "class", "const", "continue", "debugger", "default",
  "delete", "do", "else", "export", "extends", "finally", "for", "function",
  "if", "import", "in", "instanceof", "new", "return", "super", "switch",
  "this", "throw", "try", "typeof", "var", "void", "while", "with",
  "true", "false", "null",
  "enum", "implements", "interface", "package", "private", "protected",
  "public", "static", "let", "yield", "await",
  "abstract", "boolean", "byte", "char", "double", "final", "float", "goto",
  "int", "long", "native", "short", "synchronized", "throws", "transient",
  "volatile",
  "arguments", "eval"
]

def isReserved (name : String) : Bool :=
  reservedWords.contains name

end Codemod.Text
