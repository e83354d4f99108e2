import DocSignature.Language.Basic
import DocSignature.NamingPolicy

/-!
# How each language spells types

The builtin names of the source language in each target language. All four tables have the same
names in the same order.
-/

namespace DocSignature.Language

/-- Builtin names in Python. -/
def pythonBuiltins : Dictionary (Option String) :=
  [("string", some "str"), ("String", some "str"), ("number", some "float"),
    ("Number", some "float"), ("boolean", some "bool"), ("Boolean", some "bool"),
    ("bigint", some "int"), ("any", some "typing.Any"), ("unknown", some "typing.Any"),
    ("object", some "object"), ("Object", some "object"), ("void", some "None"),
    ("undefined", some "None"), ("null", some "None"), ("never", some "typing.NoReturn"),
    ("symbol", none), ("Date", some "datetime.datetime"), ("Error", some "Exception"),
    ("Function", some "typing.Callable"), ("RegExp", some "re.Pattern"),
    ("Promise", some "typing.Awaitable"), ("Array", some "typing.List[typing.Any]"),
    ("Map", some "typing.Mapping[typing.Any, typing.Any]"), ("Set", some "typing.Set[typing.Any]"),
    ("Uint8Array", some "bytes")]

/-- Builtin names in Go. -/
def goBuiltins : Dictionary (Option String) :=
  [("string", some "string"), ("String", some "string"), ("number", some "float64"),
    ("Number", some "float64"), ("boolean", some "bool"), ("Boolean", some "bool"),
    ("bigint", some "*big.Int"), ("any", some "any"), ("unknown", some "any"),
    ("object", some "any"), ("Object", some "any"), ("void", none), ("undefined", none),
    ("null", none), ("never", none), ("symbol", none), ("Date", some "time.Time"),
    ("Error", some "error"), ("Function", none), ("RegExp", some "*regexp.Regexp"),
    ("Promise", none), ("Array", some "[]any"), ("Map", some "map[string]any"), ("Set", none),
    ("Uint8Array", some "[]byte")]

/-- Builtin names in Java. -/
def javaBuiltins : Dictionary (Option String) :=
  [("string", some "String"), ("String", some "String"), ("number", some "Number"),
    ("Number", some "Number"), ("boolean", some "Boolean"), ("Boolean", some "Boolean"),
    ("bigint", some "java.math.BigInteger"), ("any", some "Object"), ("unknown", some "Object"),
    ("object", some "Object"), ("Object", some "Object"), ("void", none), ("undefined", none),
    ("null", none), ("never", none), ("symbol", none), ("Date", some "java.time.Instant"),
    ("Error", some "Exception"), ("Function", none), ("RegExp", some "java.util.regex.Pattern"),
    ("Promise", some "java.util.concurrent.CompletableFuture<Object>"),
    ("Array", some "java.util.List<Object>"), ("Map", some "java.util.Map<String, Object>"),
    ("Set", some "java.util.Set<Object>"), ("Uint8Array", some "byte[]")]

/-- Builtin names in C#. -/
def csharpBuiltins : Dictionary (Option String) :=
  [("string", some "string"), ("String", some "string"), ("number", some "double"),
    ("Number", some "double"), ("boolean", some "bool"), ("Boolean", some "bool"),
    ("bigint", some "System.Numerics.BigInteger"), ("any", some "object"),
    ("unknown", some "object"), ("object", some "object"), ("Object", some "object"),
    ("void", none), ("undefined", none), ("null", none), ("never", none), ("symbol", none),
    ("Date", some "System.DateTime"), ("Error", some "System.Exception"), ("Function", none),
    ("RegExp", some "System.Text.RegularExpressions.Regex"),
    ("Promise", some "System.Threading.Tasks.Task"), ("Array", some "object[]"),
    ("Map", some "System.Collections.Generic.IDictionary<string, object>"),
    ("Set", some "System.Collections.Generic.ISet<object>"), ("Uint8Array", some "byte[]")]

/-- The naming policy of a language. -/
def policy : Language → NamingPolicy
  | .python =>
    { language := "python", builtins := pythonBuiltins, fallback := "typing.Any"
      arrayTemplate := .around "typing.List[" "]"
      unionTemplate := some (.around "typing.Union[" "]") }
  | .go =>
    { language := "go", builtins := goBuiltins, fallback := "any"
      arrayTemplate := .around "[]" "" }
  | .java =>
    { language := "java", builtins := javaBuiltins, fallback := "Object"
      arrayTemplate := .around "java.util.List<" ">" }
  | .csharp =>
    { language := "csharp", builtins := csharpBuiltins, fallback := "object"
      arrayTemplate := .around "" "[]" }

/-- The naming policy of a language with some names spelled otherwise. -/
def policyWith (language : Language) (typeMap : Dictionary (Option String)) : NamingPolicy :=
  language.policy.withOverrides typeMap

end DocSignature.Language
