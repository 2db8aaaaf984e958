import MiniLisp.Primitive.Argument

/-!
# Lists, vectors, sets and maps

No primitive changes its arguments: what adds or takes away an element gives a new collection.
-/

namespace MiniLisp.Primitive

/-- The number of elements of a collection, or of characters of a string. -/
def sizeOf (p : Primitive) (v : Value) : Except Error Nat :=
  match v with
  | .nil => .ok 0
  | .pair .. =>
    match v.toList? with
    | some items => .ok items.length
    | none => .error (p.typeError 0 "a proper list" v)
  | .vector items => .ok items.length
  | .set s => .ok s.size
  | .map m => .ok m.size
  | .str s => .ok s.length
  | v => .error (p.typeError 0 "a collection or string" v)

def consOf (args : List Value) : Except Error Value := do
  let (h, t) ← twoArguments .cons args
  return .pair h t

def headOf (args : List Value) : Except Error Value := do
  match ← oneArgument .head args with
  | .pair h _ => return h
  | v => throw (typeError .head 0 "a non-empty list" v)

def tailOf (args : List Value) : Except Error Value := do
  match ← oneArgument .tail args with
  | .pair _ t => return t
  | v => throw (typeError .tail 0 "a non-empty list" v)

def lengthOf (args : List Value) : Except Error Value := do
  let v ← oneArgument .length args
  match v with
  | .set _ | .map _ => throw (typeError .length 0 "a list, vector or string" v)
  | v => return .ofInt (← sizeOf .length v)

/-- The elements of all arguments from a place on, one list after another. -/
def appendFrom (index : Nat) : List Value → Except Error (List Value)
  | [] => .ok []
  | v :: vs => do
    match v.toList? with
    | some items => return items ++ (← appendFrom (index + 1) vs)
    | none => throw (typeError .append index "a proper list" v)

def appendAll (args : List Value) : Except Error Value := do return .list (← appendFrom 0 args)

def reverseOf (args : List Value) : Except Error Value := do
  match ← oneArgument .reverse args with
  | .vector items => return .vector items.reverse
  | v =>
    match v.toList? with
    | some items => return .list items.reverse
    | none => throw (typeError .reverse 0 "a list or vector" v)

def nthOf (args : List Value) : Except Error Value := do
  let (seq, index) ← twoArguments .nth args
  match ← indexArgument .nth index with
  | none => return .nil
  | some i =>
    match seq with
    | .vector items => return items[i]?.getD .nil
    | .nil | .pair .. => return seq.heads[i]?.getD .nil
    | v => throw (typeError .nth 0 "a list or vector" v)

/-- What a collection holds under a key: a map its value, a vector its element at that index, a set the member itself. -/
def find? (coll key : Value) : Except Error (Option Value) :=
  match coll, key with
  | .map m, key => .ok (m.get? key)
  | .vector items, .num (.int i) => .ok (if 0 ≤ i.toInt then items[i.toInt.toNat]? else none)
  | .set s, key => .ok (if s.contains key then some key else none)
  | .nil, _ => .ok none
  | v, _ => .error (typeError .get 0 "a map, vector or set" v)

def getFrom (args : List Value) : Except Error Value := do
  needAtLeast .get 2 args
  match args with
  | [coll, key] => return (← find? coll key).getD .nil
  | [coll, key, default] => return (← find? coll key).getD default
  | args => throw (arityError .get "2 or 3" args.length)

/-- Replace elements of a vector by index, or add one at its end. -/
def assocVector (items : List Value) : List (Value × Value) → Except Error (List Value)
  | [] => .ok items
  | (key, value) :: rest => do
    match ← indexArgument .assoc key with
    | some i =>
      if i < items.length then assocVector (items.set i value) rest
      else if i = items.length then assocVector (items ++ [value]) rest
      else throw (Error.invalidOperation "assoc" "a vector index out of range")
    | none => throw (Error.invalidOperation "assoc" "a vector index out of range")

def assocAll (args : List Value) : Except Error Value := do
  needAtLeast .assoc 3 args
  if args.length % 2 == 0 then
    throw (arityError .assoc "a collection plus key/value pairs" args.length)
  let pairs := pairUp args.tail
  match args.headD .nil with
  | .map m => return .map (m.insertAll pairs)
  | .nil => return .map (.ofList pairs)
  | .vector items => return .vector (← assocVector items pairs)
  | v => throw (typeError .assoc 0 "a map or vector" v)

def dissocAll (args : List Value) : Except Error Value := do
  needAtLeast .dissoc 1 args
  match args.headD .nil with
  | .map m => return .map (args.tail.foldl OrderedMap.erase m)
  | .set s => return .set (args.tail.foldl FiniteSet.erase s)
  | v => throw (typeError .dissoc 0 "a map or set" v)

def containsOf (args : List Value) : Except Error Value := do
  let (coll, needle) ← twoArguments .contains args
  match coll with
  | .map m => return .bool (m.contains needle)
  | .set s => return .bool (s.contains needle)
  | .vector items => return .bool (items.any (· == needle))
  | .nil | .pair .. => return .bool (coll.heads.any (· == needle))
  | v => throw (typeError .contains 0 "a collection" v)

def countOf (args : List Value) : Except Error Value := do
  return .ofInt (← sizeOf .count (← oneArgument .count args))

/-- The only argument, a map. -/
def mapArgument (p : Primitive) (args : List Value) : Except Error (OrderedMap Value Value) := do
  match ← oneArgument p args with
  | .map m => return m
  | v => throw (p.typeError 0 "a map" v)

def keysOf (args : List Value) : Except Error Value := do return .list (← mapArgument .keys args).keys

def valuesOf (args : List Value) : Except Error Value := do return .list (← mapArgument .values args).values

/-- Add entries, each a vector of a key and a value, to a map; `index` is the place of the first. -/
def conjMap (index : Nat) (m : OrderedMap Value Value) : List Value → Except Error (OrderedMap Value Value)
  | [] => .ok m
  | .vector [k, v] :: rest => conjMap (index + 1) (m.insert k v) rest
  | v :: _ => .error (typeError .conj index "a [key value] vector" v)

def conjAll (args : List Value) : Except Error Value := do
  needAtLeast .conj 1 args
  let additions := args.tail
  match args.headD .nil with
  | .vector items => return .vector (items ++ additions)
  | .set s => return .set (s.insertAll additions)
  | .map m => return .map (← conjMap 1 m additions)
  | v =>
    if v.isList then return additions.foldl (fun list x => .pair x list) v
    else throw (typeError .conj 0 "a collection" v)

end MiniLisp.Primitive
