import AtomicCss.ClassMap.Basic
import AtomicCss.Json.Quoted
set_option autoImplicit false

/-!
The module that exports the class map: one constant for each namespace, an object of class lists in
plain mode, and in development mode an accessor that throws on unknown names.
-/

namespace AtomicCss

inductive EmissionMode where
  | plain
  | dev
  deriving DecidableEq, Repr

namespace ClassMap

/-- What the module declares for its accessors. -/
def accessorPrelude : List String := [
  "class _MissingClassError extends Error \x7b",
  "  constructor(namespace, name) \x7b",
  "    super(`$\x7bnamespace\x7d.$\x7bname\x7d is undefined`);",
  "    this.name = \"MissingClassError\";",
  "    this.namespace = namespace;",
  "    this.key = name;",
  "  \x7d",
  "\x7d",
  "",
  "const _accessor = (namespace, classes) => \x7b",
  "  const has = (name) => Object.prototype.hasOwnProperty.call(classes, name);",
  "  const get = (name) => \x7b",
  "    if (!has(name)) throw new _MissingClassError(namespace, name);",
  "    return classes[name];",
  "  \x7d;",
  "  const cx = (...args) => \x7b",
  "    const lists = [];",
  "    for (const arg of args) \x7b",
  "      if (typeof arg === \"string\") \x7b",
  "        lists.push(get(arg));",
  "      \x7d else if (arg != null) \x7b",
  "        for (const [name, enabled] of Object.entries(arg)) \x7b",
  "          if (enabled) lists.push(get(name));",
  "        \x7d",
  "      \x7d",
  "    \x7d",
  "    return lists.filter((list) => list !== \"\").join(\" \");",
  "  \x7d;",
  "  return Object.freeze(\x7b get, has, cx, classes: Object.freeze(\x7b ...classes \x7d) \x7d);",
  "\x7d;"]

def unlines (lines : List Text) : Text := lines.flatMap (· ++ ['\n'])

def objectLiteral (m : ClassMap) (space : Text) : Text :=
  let members := (m.entries space).map fun e =>
    "  ".toList ++ Json.quote e.1 ++ ": ".toList ++ Json.quote e.2
  if members.isEmpty then "\x7b\x7d".toList
  else '{' :: '\n' :: (Text.join ",\n".toList members ++ "\n\x7d".toList)

def exportLine (m : ClassMap) (mode : EmissionMode) (space : Text) : Text :=
  "export const ".toList ++ space ++ " = ".toList ++
    match mode with
    | .plain => m.objectLiteral space ++ [';']
    | .dev => "_accessor(".toList ++ Json.quote space ++ ", ".toList ++ m.objectLiteral space
        ++ ");".toList

theorem exportLine_plain (m : ClassMap) (space : Text) :
    m.exportLine .plain space =
      "export const ".toList ++ space ++ " = ".toList ++ (m.objectLiteral space ++ [';']) :=
  rfl

theorem exportLine_dev (m : ClassMap) (space : Text) :
    m.exportLine .dev space = "export const ".toList ++ space ++ " = ".toList ++
      ("_accessor(".toList ++ Json.quote space ++ ", ".toList ++ m.objectLiteral space ++
        ");".toList) :=
  rfl

def renderModule (m : ClassMap) (mode : EmissionMode) : Text :=
  let exports := unlines (m.keys.map (m.exportLine mode))
  match mode with
  | .plain => exports
  | .dev => unlines (accessorPrelude.map String.toList) ++ '\n' :: exports

end ClassMap
end AtomicCss
