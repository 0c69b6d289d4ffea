import CodeTint.Language.Spec

/-!
# The built-in languages

Keywords, operators and comment marks of the languages known without settings,
in the order in which they are registered.
-/

namespace CodeTint.Builtin

/-- Block comments between a slash with a star and a star with a slash. -/
def starComments : List BlockComment :=
  [{ opening := "/*", closing := "*/" }]

def c : Spec where
  name := "c"
  aliases := ["h"]
  extensions := ["c", "h"]
  keywords := [
    "auto", "break", "case", "char", "const", "continue", "default", "do", "double", "else",
    "enum", "extern", "float", "for", "goto", "if", "inline", "int", "long", "register",
    "restrict", "return", "short", "signed", "sizeof", "static", "struct", "switch", "typedef",
    "union", "unsigned", "void", "volatile", "while", "_Bool", "NULL"]
  operators := [
    "<<=", ">>=", "->", "++", "--", "<<", ">>", "<=", ">=", "==", "!=", "&&", "||", "+=", "-=",
    "*=", "/=", "%=", "&=", "|=", "^=", "+", "-", "*", "/", "%", "=", "<", ">", "!", "&", "|",
    "^", "~", "?", ":"]
  lineComments := ["//"]
  blockComments := starComments
  quotes := "'\""

def cpp : Spec where
  name := "cpp"
  aliases := ["c++", "cxx", "hpp"]
  extensions := ["cpp", "cc", "cxx", "hpp", "hh", "hxx"]
  keywords := [
    "alignas", "alignof", "auto", "bool", "break", "case", "catch", "char", "class", "const",
    "constexpr", "const_cast", "continue", "decltype", "default", "delete", "do", "double",
    "dynamic_cast", "else", "enum", "explicit", "export", "extern", "false", "float", "for",
    "friend", "goto", "if", "inline", "int", "long", "mutable", "namespace", "new", "noexcept",
    "nullptr", "operator", "private", "protected", "public", "register", "reinterpret_cast",
    "return", "short", "signed", "sizeof", "static", "static_assert", "static_cast", "struct",
    "switch", "template", "this", "throw", "true", "try", "typedef", "typeid", "typename",
    "union", "unsigned", "using", "virtual", "void", "volatile", "while"]
  operators := [
    "<=>", "<<=", ">>=", "->*", "::", "->", ".*", "++", "--", "<<", ">>", "<=", ">=", "==", "!=",
    "&&", "||", "+=", "-=", "*=", "/=", "%=", "&=", "|=", "^=", "+", "-", "*", "/", "%", "=", "<",
    ">", "!", "&", "|", "^", "~", "?", ":"]
  lineComments := ["//"]
  blockComments := starComments
  quotes := "'\""

def csharp : Spec where
  name := "csharp"
  aliases := ["c#", "cs"]
  extensions := ["cs"]
  keywords := [
    "abstract", "as", "base", "bool", "break", "byte", "case", "catch", "char", "checked",
    "class", "const", "continue", "decimal", "default", "delegate", "do", "double", "else",
    "enum", "event", "explicit", "extern", "false", "finally", "fixed", "float", "for", "foreach",
    "goto", "if", "implicit", "in", "int", "interface", "internal", "is", "lock", "long",
    "namespace", "new", "null", "object", "operator", "out", "override", "params", "private",
    "protected", "public", "readonly", "ref", "return", "sbyte", "sealed", "short", "sizeof",
    "stackalloc", "static", "string", "struct", "switch", "this", "throw", "true", "try",
    "typeof", "uint", "ulong", "unchecked", "unsafe", "ushort", "using", "var", "virtual", "void",
    "volatile", "while", "async", "await"]
  operators := [
    "??=", "<<=", ">>=", "=>", "??", "?.", "::", "->", "++", "--", "<<", ">>", "<=", ">=", "==",
    "!=", "&&", "||", "+=", "-=", "*=", "/=", "%=", "&=", "|=", "^=", "+", "-", "*", "/", "%",
    "=", "<", ">", "!", "&", "|", "^", "~", "?", ":"]
  lineComments := ["//"]
  blockComments := starComments
  quotes := "'\""

def go : Spec where
  name := "go"
  aliases := ["golang"]
  extensions := ["go"]
  keywords := [
    "break", "case", "chan", "const", "continue", "default", "defer", "else", "fallthrough",
    "for", "func", "go", "goto", "if", "import", "interface", "map", "package", "range", "return",
    "select", "struct", "switch", "type", "var", "nil", "true", "false", "iota"]
  operators := [
    "<<=", ">>=", "&^=", "...", ":=", "<-", "&^", "++", "--", "<<", ">>", "<=", ">=", "==", "!=",
    "&&", "||", "+=", "-=", "*=", "/=", "%=", "&=", "|=", "^=", "+", "-", "*", "/", "%", "=", "<",
    ">", "!", "&", "|", "^", ":"]
  lineComments := ["//"]
  blockComments := starComments
  quotes := "'\"`"

def java : Spec where
  name := "java"
  extensions := ["java"]
  keywords := [
    "abstract", "assert", "boolean", "break", "byte", "case", "catch", "char", "class", "const",
    "continue", "default", "do", "double", "else", "enum", "extends", "final", "finally", "float",
    "for", "goto", "if", "implements", "import", "instanceof", "int", "interface", "long",
    "native", "new", "package", "private", "protected", "public", "return", "short", "static",
    "strictfp", "super", "switch", "synchronized", "this", "throw", "throws", "transient", "try",
    "void", "volatile", "while", "var", "record", "true", "false", "null"]
  operators := [
    ">>>=", "<<=", ">>=", ">>>", "->", "::", "++", "--", "<<", ">>", "<=", ">=", "==", "!=", "&&",
    "||", "+=", "-=", "*=", "/=", "%=", "&=", "|=", "^=", "+", "-", "*", "/", "%", "=", "<", ">",
    "!", "&", "|", "^", "~", "?", ":", "@"]
  lineComments := ["//"]
  blockComments := starComments
  quotes := "'\""
  tripleQuotes := true

def javascript : Spec where
  name := "javascript"
  aliases := ["js", "jsx", "typescript", "ts", "tsx", "node"]
  extensions := ["js", "mjs", "cjs", "jsx", "ts", "mts", "cts", "tsx"]
  keywords := [
    "async", "await", "break", "case", "catch", "class", "const", "continue", "debugger",
    "default", "delete", "do", "else", "export", "extends", "false", "finally", "for", "from",
    "function", "if", "import", "in", "instanceof", "let", "new", "null", "of", "return",
    "static", "super", "switch", "this", "throw", "true", "try", "typeof", "undefined", "var",
    "void", "while", "with", "yield", "abstract", "as", "declare", "enum", "implements",
    "interface", "keyof", "namespace", "private", "protected", "public", "readonly", "type"]
  operators := [
    ">>>=", "===", "!==", "**=", "<<=", ">>=", ">>>", "&&=", "||=", "??=", "...", "=>", "==",
    "!=", "<=", ">=", "&&", "||", "??", "?.", "++", "--", "+=", "-=", "*=", "/=", "%=", "&=",
    "|=", "^=", "**", "<<", ">>", "+", "-", "*", "/", "%", "=", "<", ">", "!", "&", "|", "^", "~",
    "?", ":", "@"]
  lineComments := ["//"]
  blockComments := starComments
  quotes := "'\"`"

def python : Spec where
  name := "python"
  aliases := ["py", "python3"]
  extensions := ["py", "pyi", "pyw"]
  keywords := [
    "False", "None", "True", "and", "as", "assert", "async", "await", "break", "class",
    "continue", "def", "del", "elif", "else", "except", "finally", "for", "from", "global", "if",
    "import", "in", "is", "lambda", "nonlocal", "not", "or", "pass", "raise", "return", "try",
    "while", "with", "yield", "match", "case"]
  operators := [
    "**=", "//=", ">>=", "<<=", "->", ":=", "**", "//", "<<", ">>", "<=", ">=", "==", "!=", "+=",
    "-=", "*=", "/=", "%=", "&=", "|=", "^=", "@=", "+", "-", "*", "/", "%", "=", "<", ">", "&",
    "|", "^", "~", ":", "@"]
  lineComments := ["#"]
  quotes := "'\""
  tripleQuotes := true

def ruby : Spec where
  name := "ruby"
  aliases := ["rb"]
  extensions := ["rb", "rake", "gemspec"]
  keywords := [
    "BEGIN", "END", "alias", "and", "begin", "break", "case", "class", "def", "defined", "do",
    "else", "elsif", "end", "ensure", "false", "for", "if", "in", "module", "next", "nil", "not",
    "or", "redo", "rescue", "retry", "return", "self", "super", "then", "true", "undef", "unless",
    "until", "when", "while", "yield", "require"]
  operators := [
    "**=", "<=>", "===", "...", "||=", "&&=", "<<=", ">>=", "=>", "->", "=~", "!~", "**", "..",
    "::", "<<", ">>", "<=", ">=", "==", "!=", "&&", "||", "+=", "-=", "*=", "/=", "%=", "+", "-",
    "*", "/", "%", "=", "<", ">", "!", "&", "|", "^", "~", "?", ":"]
  lineComments := ["#"]
  blockComments := [{ opening := "=begin", closing := "=end", lineStart := true }]
  quotes := "'\"`"

def rust : Spec where
  name := "rust"
  aliases := ["rs"]
  extensions := ["rs"]
  keywords := [
    "as", "async", "await", "break", "const", "continue", "crate", "dyn", "else", "enum",
    "extern", "false", "fn", "for", "if", "impl", "in", "let", "loop", "match", "mod", "move",
    "mut", "pub", "ref", "return", "self", "Self", "static", "struct", "super", "trait", "true",
    "type", "unsafe", "use", "where", "while", "yield"]
  operators := [
    "<<=", ">>=", "...", "..=", "::", "->", "=>", "..", "<<", ">>", "<=", ">=", "==", "!=", "&&",
    "||", "+=", "-=", "*=", "/=", "%=", "&=", "|=", "^=", "+", "-", "*", "/", "%", "=", "<", ">",
    "!", "&", "|", "^", "?", ":", "@"]
  lineComments := ["//"]
  blockComments := starComments
  quotes := "\""

def shell : Spec where
  name := "shell"
  aliases := ["sh", "bash", "zsh"]
  extensions := ["sh", "bash", "zsh"]
  keywords := [
    "if", "then", "else", "elif", "fi", "case", "esac", "for", "while", "until", "do", "done",
    "in", "function", "return", "local", "export", "readonly", "select", "time", "exit", "set",
    "unset", "shift", "source"]
  operators := [
    "&&", "||", ";;", ">>", "<<", "<=", ">=", "==", "!=", "=~", "|&", ">&", "<&", "=", "<", ">",
    "!", "&", "|", "+", "-", "*", "/", "%"]
  lineComments := ["#"]
  quotes := "'\"`"

def sql : Spec where
  name := "sql"
  aliases := ["postgres", "postgresql", "mysql", "sqlite"]
  extensions := ["sql"]
  keywords := [
    "select", "from", "where", "insert", "into", "values", "update", "set", "delete", "create",
    "alter", "drop", "table", "index", "view", "join", "inner", "outer", "left", "right", "full",
    "on", "group", "by", "order", "having", "limit", "offset", "union", "all", "distinct", "and",
    "or", "not", "null", "is", "in", "like", "between", "exists", "case", "when", "then", "else",
    "end", "as", "asc", "desc", "primary", "key", "foreign", "references", "default", "returning",
    "with"]
  operators := [
    "<>", "<=", ">=", "!=", "||", "::", "+", "-", "*", "/", "%", "=", "<", ">"]
  lineComments := ["--"]
  blockComments := starComments
  quotes := "'\"`"
  ignoreCase := true

def specs : List Spec :=
  [c, cpp, csharp, go, java, javascript, python, ruby, rust, shell, sql]

end CodeTint.Builtin
