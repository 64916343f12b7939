import AtomicCss.Text.Basic
set_option autoImplicit false

/-!
Style text as a tree: declarations, rules with a selector, at-rules with a block and at-rules that
end with a semicolon, together with the shortest text of such a tree.
-/

namespace AtomicCss

inductive Node where
  | declaration (property value : Text)
  | rule (selector : Text) (children : List Node)
  | atRule (header : Text) (children : List Node)
  | statement (header : Text)
  deriving Repr

namespace Node

/-- Rules and at-rules end with their block, so no semicolon parts them from what follows. -/
def hasBlock : Node → Bool
  | .rule _ _ | .atRule _ _ => true
  | .declaration _ _ | .statement _ => false

mutual

def render : Node → Text
  | .declaration property value => property ++ ':' :: value
  | .rule selector children => selector ++ '{' :: (renderAll children ++ ['}'])
  | .atRule header children => header ++ '{' :: (renderAll children ++ ['}'])
  | .statement header => header

/-- A semicolon stands between a declaration or statement and a following sibling. -/
def renderAll : List Node → Text
  | [] => []
  | [n] => n.render
  | n :: m :: r => n.render ++ ((if n.hasBlock then [] else [';']) ++ renderAll (m :: r))

end

mutual

def renameProperties (f : Text → Text) : Node → Node
  | .declaration property value => .declaration (f property) value
  | .rule selector children => .rule selector (renamePropertiesAll f children)
  | .atRule header children => .atRule header (renamePropertiesAll f children)
  | .statement header => .statement header

def renamePropertiesAll (f : Text → Text) : List Node → List Node
  | [] => []
  | n :: r => n.renameProperties f :: renamePropertiesAll f r

end

theorem renamePropertiesAll_eq_map (f : Text → Text) (nodes : List Node) :
    renamePropertiesAll f nodes = nodes.map (renameProperties f) := by
  induction nodes with
  | nil => simp [renamePropertiesAll]
  | cons n r ih => simp [renamePropertiesAll, ih]

@[simp] theorem hasBlock_renameProperties (f : Text → Text) (n : Node) :
    (n.renameProperties f).hasBlock = n.hasBlock := by
  cases n <;> rfl

@[simp] theorem renderAll_nil : renderAll [] = [] := rfl

@[simp] theorem renderAll_singleton (n : Node) : renderAll [n] = n.render := by
  rw [renderAll]

end Node
end AtomicCss
