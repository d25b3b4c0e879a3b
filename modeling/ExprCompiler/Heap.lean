/-
The heap: contents of objects, arrays and static cells, the operators that classes come to overload
while a program runs, and the journal in which the host records its calls. This is all of the state
that the host sees. Access to it takes one step: there are no locks, which a function that calls
back while it holds one could wait for.
-/
import ExprCompiler.Overload

namespace ExprCompiler

structure Heap where
  objects : Array (Array Value) := #[]
  arrays : Array (Array Value) := #[]
  statics : Array Value := #[]
  /-- The overloads that the host has registered since the program started. -/
  registered : Overloads := []
  journal : Array String := #[]
deriving Inhabited

namespace Heap

def newObject (h : Heap) (cls : Class) (fields : Array Value) : Value × Heap :=
  (.object ⟨h.objects.size, cls⟩, { h with objects := h.objects.push fields })

def newArray (h : Heap) (elem : Ty) (items : Array Value) : Value × Heap :=
  (.array ⟨h.arrays.size, elem⟩, { h with arrays := h.arrays.push items })

/-- An instance of a class: a struct or a fresh object. Fields not given start at zero. -/
def newInstance (h : Heap) (cls : Class) (fields : List Value) : Value × Heap :=
  let all := fields ++ (Field.zeros cls.fields).drop fields.length
  if cls.isValueType then (.struct cls all, h) else h.newObject cls all.toArray

/-- The stored fields of an object. -/
def fields (h : Heap) (o : ObjectRef) : Array Value :=
  h.objects[o.id]?.getD #[]

/-- The elements of an array. -/
def items (h : Heap) (a : ArrayRef) : Array Value :=
  h.arrays[a.id]?.getD #[]

def setField (h : Heap) (o : ObjectRef) (index : Nat) (v : Value) : Heap :=
  { h with objects := h.objects.modify o.id fun fs => fs.setIfInBounds index v }

def setItem (h : Heap) (a : ArrayRef) (index : Nat) (v : Value) : Heap :=
  { h with arrays := h.arrays.modify a.id fun xs => xs.setIfInBounds index v }

def loadStatic (h : Heap) (s : StaticRef) : Value :=
  h.statics[s.id]?.getD .null

def storeStatic (h : Heap) (s : StaticRef) (v : Value) : Heap :=
  { h with statics := h.statics.setIfInBounds s.id v }

/-- Adds a line to the journal. -/
def note (h : Heap) (line : String) : Heap :=
  { h with journal := h.journal.push line }

end Heap

end ExprCompiler
