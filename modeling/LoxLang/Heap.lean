import LoxLang.Value

/-!
# The heap

Frames and instances live in one heap, which only grows. An environment is a list of frames; reading a name
searches it from the inside, while a resolved reference goes straight to its frame.
-/

namespace LoxLang

/-- What lies at an address: a frame with its variables, an instance with its fields, or nothing but the
identity of a function or a class. -/
inductive Cell where
  | frame (vars : Bindings Value)
  | fields (fields : Bindings Value)
  | identity
deriving Inhabited

/-- The cells in the order of their allocation. -/
structure Heap where
  cells : Array Cell
deriving Inhabited

namespace Heap

/-- The heap without cells. -/
def empty : Heap := ⟨#[]⟩

/-- Adds a cell at the first free address. -/
def alloc (h : Heap) (c : Cell) : Address × Heap :=
  (h.cells.size, ⟨h.cells.push c⟩)

/-- The variables of a frame. -/
def vars (h : Heap) (a : Address) : Bindings Value :=
  match h.cells[a]? with
  | some (.frame b) => b
  | _ => []

/-- The fields of an instance. -/
def fields (h : Heap) (a : Address) : Bindings Value :=
  match h.cells[a]? with
  | some (.fields b) => b
  | _ => []

/-- Binds a name in a frame. -/
def define (h : Heap) (a : Address) (name : String) (v : Value) : Heap :=
  ⟨h.cells.modify a fun
    | .frame b => .frame (b.put name v)
    | c => c⟩

/-- Binds a field of an instance. -/
def setField (h : Heap) (a : Address) (name : String) (v : Value) : Heap :=
  ⟨h.cells.modify a fun
    | .fields b => .fields (b.put name v)
    | c => c⟩

end Heap

/-! ### Environments

A resolved reference counts frames, and finds what the resolver has meant if every scope has its frame. There is no
search then, and no frame further out is tried. -/

namespace Environment

/-- The globals alone. -/
def globals : Environment := [0]

/-- The first frame that binds a name. -/
def holder? (env : Environment) (h : Heap) (name : String) : Option Address :=
  env.find? fun a => ((h.vars a).get? name).isSome

/-- The value of a name in the first frame that binds it. -/
def get? (env : Environment) (h : Heap) (name : String) : Option Value :=
  env.findSome? fun a => (h.vars a).get? name

/-- The environment some frames out. One step past the globals no frame is left, and there is no further
step. -/
def ancestor (env : Environment) (distance : Nat) : Except Fault Environment :=
  -- as many steps as frames lead past the globals, and only one more fails
  if distance ≤ env.length then return env.drop distance else throw .absent

/-- The frame some steps out. -/
def frameAt (env : Environment) (distance : Nat) : Except Fault Address := do
  match ← ancestor env distance with
  | a :: _ => return a
  | [] => throw .absent

/-- The value of a name in the frame some steps out. -/
def getAt (env : Environment) (h : Heap) (distance : Nat) (name : String) : Except Fault Value := do
  match (h.vars (← frameAt env distance)).get? name with
  | some v => return v
  | none => throw .unbound

end Environment

end LoxLang
