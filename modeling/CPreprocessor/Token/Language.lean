/-
# The words of a language

Which names are keywords and which character sequences are punctuators is a
parameter of the lexer. `#` and `##` are punctuators of every language, because
directives and replacement lists are written with them.
-/
import CPreprocessor.Text

namespace CPreprocessor

/-- The keywords and punctuators of a language. -/
structure Language where
  keywords : List Text
  punctuators : List Text
  deriving Inhabited

namespace Language

/-- The language with the given words. Empty punctuators are dropped, repeated words count
once. -/
def ofWords (keywords punctuators : List Text) : Language where
  keywords := keywords.eraseDups
  punctuators :=
    ((punctuators.filter (· ≠ [])) ++ [['#'], ['#', '#']]).eraseDups

/-- A name is a keyword of the language. -/
def isKeyword (language : Language) (name : Text) : Bool :=
  language.keywords.contains name

/-- The length of the longest punctuator at the start of a text; zero if there is none. -/
def punctuatorLength (language : Language) (text : Text) : Nat :=
  language.punctuators.foldl
    (fun longest p => if p.isPrefixOf text then max longest p.length else longest) 0

/-- The keywords of C++17 and those that C++20 added. -/
def defaultKeywords : List Text :=
  ["alignas", "alignof", "and", "and_eq", "asm", "auto", "bitand", "bitor", "bool", "break",
    "case", "catch", "char", "char8_t", "char16_t", "char32_t", "class", "compl", "concept",
    "const", "consteval", "constexpr", "constinit", "const_cast", "continue", "co_await",
    "co_return", "co_yield", "decltype", "default", "delete", "do", "double", "dynamic_cast",
    "else", "enum", "explicit", "export", "extern", "false", "float", "for", "friend", "goto",
    "if", "inline", "int", "long", "mutable", "namespace", "new", "noexcept", "not", "not_eq",
    "nullptr", "operator", "or", "or_eq", "private", "protected", "public", "register",
    "reinterpret_cast", "requires", "return", "short", "signed", "sizeof", "static",
    "static_assert", "static_cast", "struct", "switch", "template", "this", "thread_local",
    "throw", "true", "try", "typedef", "typeid", "typename", "union", "unsigned", "using",
    "virtual", "void", "volatile", "wchar_t", "while", "xor", "xor_eq"].map String.toList

/-- The punctuators of C++20, without the alternative spellings that are names. -/
def defaultPunctuators : List Text :=
  ["\x7b", "\x7d", "[", "]", "#", "##", "(", ")", "<:", ":>", "<%", "%>", "%:", "%:%:", ";", ":",
    "...", "?", "::", ".", ".*", "->", "->*", "~", "!", "+", "-", "*", "/", "%", "^", "&", "|",
    "=", "+=", "-=", "*=", "/=", "%=", "^=", "&=", "|=", "==", "!=", "<", ">", "<=", ">=", "<=>",
    "&&", "||", "<<", ">>", "<<=", ">>=", "++", "--", ","].map String.toList

/-- The default language. -/
def standard : Language :=
  ofWords defaultKeywords defaultPunctuators

end Language

end CPreprocessor
