import MiniLisp.Machine

/-!
# Code inside templates

Expansion leaves a quasiquoted template as it is, except for the code at its unquotes of level one, which it visits.
-/

namespace MiniLisp

mutual

/-- Visit the code that a template unquotes. With `inTail` the template is the tail of a list, which is no form of its own. -/
def visitTemplate (visit : Value → Action Value) (inTail : Bool) (level : Nat) : Value → Action Value
  | .pair (.sym s) (.pair arg .nil) =>
    if inTail then do
      let tail ← visitTemplate visit true level (.pair arg .nil)
      return .pair (.sym s) tail
    else if s = "unquote" ∨ s = "unquote-splicing" then
      if level = 1 then return .wrap s (← visit arg)
      else return .wrap s (← visitTemplate visit false (level - 1) arg)
    else if s = "quasiquote" then return .wrap s (← visitTemplate visit false (level + 1) arg)
    else do
      let tail ← visitTemplate visit true level (.pair arg .nil)
      return .pair (.sym s) tail
  | .pair h t => do
    let head ← visitTemplate visit false level h
    let tail ← visitTemplate visit true level t
    return .pair head tail
  | .vector xs => return .vector (← visitTemplates visit level xs)
  | .setForm xs => return .setForm (← visitTemplates visit level xs)
  | .mapForm es => return .mapForm (← visitTemplateEntries visit level es)
  | v => pure v

/-- Visit the code that several templates unquote. -/
def visitTemplates (visit : Value → Action Value) (level : Nat) : List Value → Action (List Value)
  | [] => pure []
  | x :: xs => do
    let first ← visitTemplate visit false level x
    let rest ← visitTemplates visit level xs
    return first :: rest

/-- Visit the code that the entries of a map form in a template unquote. -/
def visitTemplateEntries (visit : Value → Action Value) (level : Nat) :
    List (Value × Value) → Action (List (Value × Value))
  | [] => pure []
  | (k, v) :: es => do
    let key ← visitTemplate visit false level k
    let value ← visitTemplate visit false level v
    let rest ← visitTemplateEntries visit level es
    return (key, value) :: rest

end

end MiniLisp
