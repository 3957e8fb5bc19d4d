import TypeShape.Declaration.Manifest

/-!
# The base library

The declarations that most programs start from: objects, classes and modules, texts, numbers,
symbols, booleans, `nil`, arrays, hashes and procs, and two interfaces.

Main definitions: `baseLines`, `Table.base`.
-/

namespace TypeShape

/-- The lines of the declaration file of the base library. -/
def baseLines : List String :=
  ["[[class]]",
   "name = \"::BasicObject\"",
   "",
   "[[class.method]]",
   "name = \"initialize\"",
   "visibility = \"private\"",
   "types = [\"() -> void\"]",
   "",
   "[[class.method]]",
   "name = \"!\"",
   "types = [\"() -> bool\"]",
   "",
   "[[class.method]]",
   "name = \"==\"",
   "types = [\"(untyped) -> bool\"]",
   "",
   "[[class.method]]",
   "name = \"__id__\"",
   "types = [\"() -> ::Integer\"]",
   "",
   "[[module]]",
   "name = \"::Kernel\"",
   "",
   "[[module.method]]",
   "name = \"is_a?\"",
   "types = [\"(::Module) -> bool\"]",
   "",
   "[[module.method]]",
   "name = \"kind_of?\"",
   "types = [\"(::Module) -> bool\"]",
   "",
   "[[module.method]]",
   "name = \"instance_of?\"",
   "types = [\"(::Module) -> bool\"]",
   "",
   "[[module.method]]",
   "name = \"nil?\"",
   "types = [\"() -> bool\"]",
   "",
   "[[module.method]]",
   "name = \"===\"",
   "types = [\"(untyped) -> bool\"]",
   "",
   "[[module.method]]",
   "name = \"itself\"",
   "types = [\"() -> self\"]",
   "",
   "[[module.method]]",
   "name = \"class\"",
   "types = [\"() -> untyped\"]",
   "",
   "[[module.method]]",
   "name = \"to_s\"",
   "types = [\"() -> ::String\"]",
   "",
   "[[module.method]]",
   "name = \"inspect\"",
   "types = [\"() -> ::String\"]",
   "",
   "[[module.method]]",
   "name = \"hash\"",
   "types = [\"() -> ::Integer\"]",
   "",
   "[[module.method]]",
   "name = \"puts\"",
   "kind = \"singleton_instance\"",
   "types = [\"(*untyped) -> nil\"]",
   "",
   "[[class]]",
   "name = \"::Object\"",
   "super = \"::BasicObject\"",
   "include = [\"::Kernel\"]",
   "",
   "[[class]]",
   "name = \"::Module\"",
   "super = \"::Object\"",
   "",
   "[[class.method]]",
   "name = \"===\"",
   "types = [\"(untyped) -> bool\"]",
   "",
   "[[class.method]]",
   "name = \"<\"",
   "types = [\"(::Module) -> bool?\"]",
   "",
   "[[class.method]]",
   "name = \"<=\"",
   "types = [\"(::Module) -> bool?\"]",
   "",
   "[[class.method]]",
   "name = \"name\"",
   "types = [\"() -> ::String?\"]",
   "",
   "[[class]]",
   "name = \"::Class\"",
   "super = \"::Module\"",
   "",
   "[[class.method]]",
   "name = \"allocate\"",
   "types = [\"() -> instance\"]",
   "",
   "[[class.method]]",
   "name = \"superclass\"",
   "types = [\"() -> ::Class?\"]",
   "",
   "[[module]]",
   "name = \"::Comparable\"",
   "",
   "[[module.method]]",
   "name = \"between?\"",
   "types = [\"(self, self) -> bool\"]",
   "",
   "[[class]]",
   "name = \"::String\"",
   "super = \"::Object\"",
   "include = [\"::Comparable\"]",
   "",
   "[[class.method]]",
   "name = \"initialize\"",
   "types = [\"() -> void\", \"(::String) -> void\"]",
   "",
   "[[class.method]]",
   "name = \"===\"",
   "types = [\"(untyped) -> bool\"]",
   "",
   "[[class.method]]",
   "name = \"+\"",
   "types = [\"(::String) -> ::String\"]",
   "",
   "[[class.method]]",
   "name = \"length\"",
   "types = [\"() -> ::Integer\"]",
   "",
   "[[class.method]]",
   "name = \"upcase\"",
   "types = [\"() -> ::String\"]",
   "",
   "[[class.method]]",
   "name = \"to_s\"",
   "types = [\"() -> ::String\"]",
   "",
   "[[class.method]]",
   "name = \"try_convert\"",
   "kind = \"singleton\"",
   "types = [\"(untyped) -> ::String?\"]",
   "",
   "[[class]]",
   "name = \"::Integer\"",
   "super = \"::Object\"",
   "include = [\"::Comparable\"]",
   "",
   "[[class.method]]",
   "name = \"===\"",
   "types = [\"(untyped) -> bool\"]",
   "",
   "[[class.method]]",
   "name = \"+\"",
   "types = [\"(::Integer) -> ::Integer\"]",
   "",
   "[[class.method]]",
   "name = \"zero?\"",
   "types = [\"() -> bool\"]",
   "",
   "[[class.method]]",
   "name = \"times\"",
   "types = [\"() \x7b (::Integer) -> void \x7d -> self\"]",
   "",
   "[[class.method]]",
   "name = \"to_s\"",
   "types = [\"() -> ::String\", \"(::Integer) -> ::String\"]",
   "",
   "[[class]]",
   "name = \"::Symbol\"",
   "super = \"::Object\"",
   "",
   "[[class.method]]",
   "name = \"===\"",
   "types = [\"(untyped) -> bool\"]",
   "",
   "[[class.method]]",
   "name = \"to_s\"",
   "types = [\"() -> ::String\"]",
   "",
   "[[class]]",
   "name = \"::TrueClass\"",
   "super = \"::Object\"",
   "",
   "[[class.method]]",
   "name = \"!\"",
   "types = [\"() -> false\"]",
   "",
   "[[class.method]]",
   "name = \"===\"",
   "types = [\"(untyped) -> bool\"]",
   "",
   "[[class.method]]",
   "name = \"&\"",
   "types = [\"(untyped) -> bool\"]",
   "",
   "[[class]]",
   "name = \"::FalseClass\"",
   "super = \"::Object\"",
   "",
   "[[class.method]]",
   "name = \"!\"",
   "types = [\"() -> true\"]",
   "",
   "[[class.method]]",
   "name = \"===\"",
   "types = [\"(untyped) -> bool\"]",
   "",
   "[[class.method]]",
   "name = \"&\"",
   "types = [\"(untyped) -> false\"]",
   "",
   "[[class]]",
   "name = \"::NilClass\"",
   "super = \"::Object\"",
   "",
   "[[class.method]]",
   "name = \"!\"",
   "types = [\"() -> true\"]",
   "",
   "[[class.method]]",
   "name = \"nil?\"",
   "types = [\"() -> true\"]",
   "",
   "[[class.method]]",
   "name = \"===\"",
   "types = [\"(untyped) -> bool\"]",
   "",
   "[[class.method]]",
   "name = \"to_a\"",
   "types = [\"() -> []\"]",
   "",
   "[[module]]",
   "name = \"::Enumerable\"",
   "params = [\"Elem\"]",
   "",
   "[[module.method]]",
   "name = \"map\"",
   "types = [\"[U] () \x7b (Elem) -> U \x7d -> ::Array[U]\"]",
   "",
   "[[module.method]]",
   "name = \"to_a\"",
   "types = [\"() -> ::Array[Elem]\"]",
   "",
   "[[class]]",
   "name = \"::Array\"",
   "params = [\"Elem\"]",
   "super = \"::Object\"",
   "include = [\"::Enumerable[Elem]\"]",
   "",
   "[[class.method]]",
   "name = \"initialize\"",
   "types = [\"() -> void\", \"(::Integer, Elem) -> void\"]",
   "",
   "[[class.method]]",
   "name = \"[]\"",
   "types = [\"(::Integer) -> Elem\", \"(::Integer, ::Integer) -> ::Array[Elem]?\"]",
   "",
   "[[class.method]]",
   "name = \"[]=\"",
   "types = [\"(::Integer, Elem) -> Elem\"]",
   "",
   "[[class.method]]",
   "name = \"fetch\"",
   "types = [\"(::Integer) -> Elem\", \"[T] (::Integer, T) -> (Elem | T)\"]",
   "",
   "[[class.method]]",
   "name = \"first\"",
   "types = [\"() -> Elem?\", \"(::Integer) -> ::Array[Elem]\"]",
   "",
   "[[class.method]]",
   "name = \"last\"",
   "types = [\"() -> Elem?\", \"(::Integer) -> ::Array[Elem]\"]",
   "",
   "[[class.method]]",
   "name = \"each\"",
   "types = [\"() \x7b (Elem) -> void \x7d -> self\"]",
   "",
   "[[class.method]]",
   "name = \"size\"",
   "types = [\"() -> ::Integer\"]",
   "",
   "[[class]]",
   "name = \"::Hash\"",
   "params = [\"K\", \"V\"]",
   "super = \"::Object\"",
   "include = [\"::Enumerable[[K, V]]\"]",
   "",
   "[[class.method]]",
   "name = \"[]\"",
   "types = [\"(K) -> V?\"]",
   "",
   "[[class.method]]",
   "name = \"[]=\"",
   "types = [\"(K, V) -> V\"]",
   "",
   "[[class.method]]",
   "name = \"fetch\"",
   "types = [\"(K) -> V\", \"[T] (K, T) -> (V | T)\"]",
   "",
   "[[class.method]]",
   "name = \"keys\"",
   "types = [\"() -> ::Array[K]\"]",
   "",
   "[[class]]",
   "name = \"::Proc\"",
   "super = \"::Object\"",
   "",
   "[[class.method]]",
   "name = \"arity\"",
   "types = [\"() -> ::Integer\"]",
   "",
   "[[class.method]]",
   "name = \"call\"",
   "types = [\"(*untyped) -> untyped\"]",
   "",
   "[[interface]]",
   "name = \"::_Each\"",
   "params = [\"T\"]",
   "",
   "[[interface.method]]",
   "name = \"each\"",
   "types = [\"() \x7b (T) -> void \x7d -> self\"]",
   "",
   "[[interface]]",
   "name = \"::_ToS\"",
   "",
   "[[interface.method]]",
   "name = \"to_s\"",
   "types = [\"() -> ::String\"]"]

/-- The declaration file of the base library. -/
def baseSource : String :=
  "\n".intercalate baseLines ++ "\n"

/-- The table of the base library. -/
def Table.base : Except DeclError Table :=
  Table.ofSource baseSource

end TypeShape
