import Kompozer.Prefs.Table
import Mathlib.Data.List.Infix

/-! The list of callbacks of `prefapi.cpp` and the notifications that go through it. A
callback is a piece of unknown code: while it runs it registers and unregisters callbacks
and sets preferences, and each preference it sets starts another notification. The machine
keeps the notifications in progress on a stack, and for the statements about it which nodes
were called. -/

namespace Kompozer.Prefs

universe u

/-- `CallbackNode`. A node has an identity instead of an address; `func` is null once the
node is dead. -/
structure CallbackNode (Func Data : Type u) where
  id : ℕ
  domain : CString
  func : Option Func
  data : Data

/-- The global variables. New nodes get the identity `fresh`. -/
structure Registry (Func Data : Type u) where
  gCallbacks : List (CallbackNode Func Data)
  gCallbacksInProgress : Bool
  gShouldCleanupDeadNodes : Bool
  fresh : ℕ

namespace Registry
variable {Func Data : Type u} (r : Registry Func Data)

/-- `PREF_RegisterCallback` adds a node to the beginning of the list. -/
def PREF_RegisterCallback (pref_node : CString) (callback : Func) (instance_data : Data) :
    Registry Func Data :=
  { r with
    gCallbacks := ⟨r.fresh, pref_node, some callback, instance_data⟩ :: r.gCallbacks
    fresh := r.fresh + 1 }

/-- The nodes from one on, as its `next` pointer gives them. -/
def nodesFrom (id : ℕ) : List (CallbackNode Func Data) :=
  r.gCallbacks.dropWhile fun node => decide (node.id ≠ id)

/-- The loop at the end of `pref_DoCallback` that frees the dead nodes. -/
def cleanup : Registry Func Data :=
  { r with
    gCallbacks := r.gCallbacks.filter fun node => node.func.isSome
    gShouldCleanupDeadNodes := false }

variable [DecidableEq Func] [DecidableEq Data]

/-- The loop of `PREF_UnregisterCallback`: a node is taken out, or marked when the list is
being enumerated. -/
def unregisterLoop (inProgress : Bool) (pref_node : CString) (callback : Func)
    (instance_data : Data) : List (CallbackNode Func Data) → List (CallbackNode Func Data) × Bool
  | [] => ([], false)
  | node :: nodes =>
    let rest := unregisterLoop inProgress pref_node callback instance_data nodes
    if node.domain = pref_node ∧ node.func = some callback ∧ node.data = instance_data then
      if inProgress then ({ node with func := none } :: rest.1, true) else (rest.1, true)
    else (node :: rest.1, rest.2)

/-- `PREF_UnregisterCallback`. -/
def PREF_UnregisterCallback (pref_node : CString) (callback : Func) (instance_data : Data) :
    NsResult × Registry Func Data :=
  let nodes := unregisterLoop r.gCallbacksInProgress pref_node callback instance_data r.gCallbacks
  (if nodes.2 then .ok else NsResult.NS_ERROR_FAILURE,
    { r with
      gCallbacks := nodes.1
      gShouldCleanupDeadNodes :=
        r.gShouldCleanupDeadNodes || (r.gCallbacksInProgress && nodes.2) })

end Registry

/-- A call of `pref_DoCallback`: its parameter and variables, and whether the callback of
`node` is running. `first` and `called` are not in the code: the nodes below `first` were
there when the call began, and `called` are the nodes it has called. -/
structure Notification where
  changed_pref : CString
  reentered : Bool
  node : Option ℕ
  rv : NsResult
  running : Bool
  first : ℕ
  called : List ℕ

/-- The variables, the notifications in progress with the innermost first, and every call
that was ever made. -/
structure Machine (Func Data : Type u) where
  registry : Registry Func Data
  stack : List Notification
  calls : List ℕ

/-- What can happen next: unknown code does something, a callback returns, or the loop of
the innermost notification goes on. -/
inductive Event (Func Data : Type u)
  | setPref (changed_pref : CString)
  | register (pref_node : CString) (callback : Func) (instance_data : Data)
  | unregister (pref_node : CString) (callback : Func) (instance_data : Data)
  | ret (rv : NsResult)
  | advance

namespace Machine
variable {Func Data : Type u} (m : Machine Func Data)

/-- Nothing is registered. -/
def init : Machine Func Data := ⟨⟨[], false, false, 0⟩, [], []⟩

/-- Unknown code is running: no notification is in progress, or a callback of the innermost
one is. -/
def client : Bool :=
  match m.stack with
  | [] => true
  | f :: _ => f.running

/-- The beginning of `pref_DoCallback`. -/
def enter (changed_pref : CString) : Machine Func Data :=
  let reentered := m.registry.gCallbacksInProgress
  let f := Notification.mk changed_pref reentered
    (m.registry.gCallbacks.head?.map CallbackNode.id) .ok false m.registry.fresh []
  { m with
    registry := { m.registry with gCallbacksInProgress := true }
    stack := f :: m.stack }

/-- The end of `pref_DoCallback`. -/
def leave (f : Notification) (stack : List Notification) : Machine Func Data :=
  let registry := { m.registry with gCallbacksInProgress := f.reentered }
  let registry :=
    if registry.gShouldCleanupDeadNodes && !registry.gCallbacksInProgress then registry.cleanup
    else registry
  { m with registry := registry, stack := stack }

/-- One round of the loop. A node that is not in the list any more was freed, and to read it
has no meaning. -/
def visit (f : Notification) (stack : List Notification) : Option (Machine Func Data) :=
  match f.node with
  | none => some (m.leave f stack)
  | some id =>
    match m.registry.nodesFrom id with
    | [] => none
    | node :: nodes =>
      if node.func.isSome && node.domain.isPrefixOf f.changed_pref then
        some { m with
          stack := { f with running := true, called := id :: f.called } :: stack
          calls := id :: m.calls }
      else some { m with stack := { f with node := nodes.head?.map CallbackNode.id } :: stack }

/-- A callback returns and the loop goes to the next node. -/
def resume (rv : NsResult) (f : Notification) (stack : List Notification) :
    Option (Machine Func Data) :=
  match f.node.map m.registry.nodesFrom with
  | some (_ :: nodes) =>
    some { m with
      stack := { f with
        rv := if rv.failed then rv else f.rv
        running := false
        node := nodes.head?.map CallbackNode.id } :: stack }
  | _ => none

variable [DecidableEq Func] [DecidableEq Data]

/-- One step. An event that cannot happen gives nothing. -/
def step (m : Machine Func Data) : Event Func Data → Option (Machine Func Data)
  | .setPref changed_pref => if m.client then some (m.enter changed_pref) else none
  | .register pref_node callback instance_data =>
    if m.client then
      some { m with
        registry := m.registry.PREF_RegisterCallback pref_node callback instance_data }
    else none
  | .unregister pref_node callback instance_data =>
    if m.client then
      some { m with
        registry := (m.registry.PREF_UnregisterCallback pref_node callback instance_data).2 }
    else none
  | .ret rv =>
    match m.stack with
    | [] => none
    | f :: stack => if f.running then m.resume rv f stack else none
  | .advance =>
    match m.stack with
    | [] => none
    | f :: stack => if f.running then none else m.visit f stack

/-- Any number of steps. -/
def run : List (Event Func Data) → Machine Func Data → Option (Machine Func Data)
  | [], m => some m
  | e :: es, m => (m.step e).bind (run es)

end Machine

end Kompozer.Prefs
