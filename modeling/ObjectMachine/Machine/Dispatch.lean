/-
  ObjectMachine/Machine/Dispatch.lean
  ===================================
  **Class names and message dispatch** — finding a class by its name and a method by its
  selector.

  A method is looked for in the receiver's class and then in its superclasses, in each in
  the order of its dictionary.
-/
import ObjectMachine.Machine.Basic

namespace ObjectMachine.Machine

/-- The class at an address. -/
def classView (m : Memory) (addr : Ref) : Except MachineError ClassView := do
  let v ← liftMemory (m.view addr)
  match ClassView.ofObject? v with
  | some c => return c
  | none => throw (.typeMismatch .classObject addr)

/-- The name of the class at an address, if there is one. -/
def className? (m : Memory) (addr : Ref) : Option String :=
  match classView m addr with
  | .error _ => none
  | .ok c =>
    match m.constantAt c.name with
    | .ok (.text name) => some name
    | _ => none

/-- The name of the class at an address, or its address in angle brackets. -/
def className (m : Memory) (addr : Ref) : String :=
  (className? m addr).getD ("<" ++ addr.text ++ ">")

/-- The name of a class by its index. -/
def classIdName (m : Memory) (id : ClassId) : String :=
  match m.classRef id with
  | .ok addr => className m addr
  | .error _ => id.text

/-- The first class with a name. -/
def classNamed? (m : Memory) (name : String) : Option ClassId :=
  m.classIds.find? fun id =>
    match m.classRef id with
    | .ok addr => className m addr == name
    | .error _ => false

/-- The first method with a selector among method indices. -/
def findMethod (m : Memory) (selector : String) :
    List Word → Except MachineError (Option Method)
  | [] => .ok none
  | index :: rest => do
    let method ← liftMemory (m.methodAt index)
    if method.selector = selector then return some method
    else findMethod m selector rest

/-- The method with a selector in a class's own dictionary. -/
def ownMethod (m : Memory) (selector : String) (c : ClassView) :
    Except MachineError (Option Method) := do
  if c.methods.isNull then return none
  let dictionary ← liftMemory (m.view c.methods)
  findMethod m selector dictionary.fieldWords

/-- The method with a selector in at most `budget` classes from `addr` upwards. -/
def inheritedMethod (m : Memory) (selector : String) :
    (budget : Nat) → (addr : Ref) → Except MachineError (Option Method)
  | 0, _ => .ok none
  | budget + 1, addr =>
    if addr.isNull then .ok none
    else do
      let c ← classView m addr
      match ← ownMethod m selector c with
      | some method => return some method
      | none => inheritedMethod m selector budget c.superclass

/-- The method that a receiver answers a selector with.  A chain of superclasses is no
    longer than the class table, so the search needs no more steps than that. -/
def lookup (m : Memory) (receiver : Ref) (selector : String) : Except MachineError Method := do
  let header ← liftMemory (m.header receiver)
  let classRef := header.classRef?.getD Ref.null
  match ← inheritedMethod m selector (m.classes.size + 1) classRef with
  | some method => return method
  | none => throw (.methodNotFound selector (className m classRef))

/-- Sends a message: the receiver becomes argument 0 of a new frame, and the method's code
    runs next. -/
def send (receiver : Ref) (selector : String) : Run Unit := do
  let method ← query (lookup · receiver selector)
  Memory.note (.sent selector receiver method.entry)
  Memory.pushRef receiver
  Memory.newFrame method.locals
  Memory.setPc method.entry

end ObjectMachine.Machine
