import CxxKernel.Memory
import CxxKernel.Lib.LinkedChain

/-! The class `List`, a singly linked list that keeps the nodes it gives up in a pool. A result
`none` says that the source follows a null pointer, or uses a node that is deleted. -/
namespace CxxKernel.Containers

def LIST_MAX_FREED : ℕ := 32

/-- An address that is not null. -/
abbrev Ptr := {w : Word // w ≠ 0}

structure ListObject (ν : Type) where
  next : Option Ptr
  ptr : Option ν

/-- The nodes that exist, and the fields of the `List`. The array `m_freed` is listed from its last
element on, and its index is the length. -/
structure LinkedList (ν : Type) where
  mem : Ptr → Option (ListObject ν)
  m_first : Option Ptr
  m_last : Option Ptr
  m_size : Word
  m_freed : List Ptr

namespace LinkedList
variable {ν : Type} (s : LinkedList ν)

def new : LinkedList ν := ⟨fun _ => none, none, none, 0, []⟩

def setNext (obj : Ptr) (next : Option Ptr) : Option (LinkedList ν) :=
  (s.mem obj).map fun o => { s with mem := Function.update s.mem obj (some { o with next }) }

/-- `fresh` is the address that `new` returns, if it is called. -/
def getFree (fresh : Ptr) (val : Option ν) : Option (Ptr × LinkedList ν) :=
  match s.m_freed with
  | res :: freed => (s.mem res).map fun _ =>
      (res, { s with mem := Function.update s.mem res (some ⟨none, val⟩), m_freed := freed })
  | [] => some (fresh, { s with mem := Function.update s.mem fresh (some ⟨none, val⟩) })

def free (obj : Ptr) : Option (LinkedList ν) :=
  if LIST_MAX_FREED ≤ s.m_freed.length + 1 then
    (s.mem obj).map fun _ => { s with mem := Function.update s.mem obj none }
  else some { s with m_freed := obj :: s.m_freed }

def addFirst (fresh : Ptr) (val : Option ν) : Option (LinkedList ν) :=
  (s.getFree fresh val).bind fun (obj, s) =>
    match s.m_first with
    | some tmp => (s.setNext obj (some tmp)).map fun s =>
        { s with m_first := some obj, m_size := s.m_size + 1 }
    | none => some { s with m_last := some obj, m_first := some obj, m_size := s.m_size + 1 }

def append (fresh : Ptr) (val : Option ν) : Option (LinkedList ν) :=
  match s.m_last with
  | none => s.addFirst fresh val
  | some tmp =>
    (s.getFree fresh val).bind fun (obj, s) => (s.setNext tmp (some obj)).map fun s =>
      { s with m_last := some obj, m_size := s.m_size + 1 }

/-- The value at a pointer to a node, which may be null. -/
def item : Option Ptr → Option (Option ν)
  | none => some none
  | some iter => (s.mem iter).map ListObject.ptr

def first : Option (Option ν) := s.item s.m_first

def last : Option (Option ν) := s.item s.m_last

def next : Option Ptr → Option (Option Ptr)
  | none => some none
  | some iter => (s.mem iter).map ListObject.next

/-- A loop over the nodes from `iter` on, that ends when `f` has a result for an item. -/
def findItem {β : Type} (f : Option ν → Option β) : ℕ → Option Ptr → Option (Option β)
  | 0, _ => none
  | _ + 1, none => some none
  | fuel + 1, some iter => (s.item (some iter)).bind fun tmp =>
      match f tmp with
      | some res => some (some res)
      | none => (s.next (some iter)).bind (findItem f fuel)

def rotateFirstLast : Option (LinkedList ν) :=
  match s.m_first with
  | none => some s
  | some tmp =>
    if some tmp = s.m_last then some s
    else
      (s.mem tmp).bind fun o =>
        s.m_last.bind fun last =>
          (({ s with m_first := o.next } : LinkedList ν).setNext last (some tmp)).bind fun s =>
            (s.setNext tmp none).map fun s => { s with m_last := some tmp }

def takeFirst : Option (Option ν × LinkedList ν) :=
  match s.m_first with
  | none => some (none, s)
  | some tmp =>
    (s.mem tmp).bind fun o =>
      let s := if o.next ≠ none then { s with m_first := o.next }
        else { s with m_first := none, m_last := none }
      (({ s with m_size := s.m_size - 1 } : LinkedList ν).free tmp).map fun s => (o.ptr, s)

/-- What the loop of `deleteAll` does with a node whose value is looked for, and whose link is
`next`. The pointer `obj` that it leaves is the link of `prev`. -/
def deleteObj (prev : Option Ptr) (obj : Ptr) (next : Option Ptr) : Option (Option Ptr × LinkedList ν) :=
  (match prev with
    | none => some { s with m_first := next }
    | some prev => s.setNext prev next).bind fun s =>
  (if s.m_last = some obj then
      prev.bind fun last => ({ s with m_last := prev } : LinkedList ν).setNext last none
    else some s).bind fun s =>
  (({ s with m_size := s.m_size - 1 } : LinkedList ν).free obj).bind fun s =>
    prev.bind fun prev => (LinkedList.next s (some prev)).map fun obj => (obj, s)

/-- The loop of `deleteAll`, from the node `obj` on, with `prev` before it. -/
def deleteAllLoop [DecidableEq ν] (val : Option ν) :
    ℕ → LinkedList ν → Option Ptr → Option Ptr → Option (LinkedList ν)
  | 0, _, _, _ => none
  | _ + 1, s, _, none => some s
  | fuel + 1, s, prev, some obj =>
    (s.mem obj).bind fun o =>
      (if o.ptr = val then s.deleteObj prev obj o.next else some (some obj, s)).bind fun (obj, s) =>
        (s.next obj).bind (deleteAllLoop val fuel s obj)

def deleteAll [DecidableEq ν] (fuel : ℕ) (val : Option ν) : Option (LinkedList ν) :=
  match s.m_first with
  | none => some s
  | some obj => deleteAllLoop val fuel s none (some obj)

def size : Word := s.m_size

/-- The loop that looks for node `n` behind `obj`: the number of the node where it stops, and the
node. -/
def walk : ℕ → ℕ → Ptr → Option (ℕ × Ptr)
  | 0, c, obj => some (c, obj)
  | n + 1, c, obj =>
    (s.mem obj).bind fun o =>
      match o.next with
      | some next => walk n (c + 1) next
      | none => some (c, obj)

def at' (i : Word) : Option (Option ν) :=
  match s.m_first with
  | none => some none
  | some obj => (s.walk i.toNat 0 obj).bind fun (c, obj) =>
      if c ≠ i.toNat then some none else (s.mem obj).map ListObject.ptr

def appendAfter (fresh : Ptr) (i : Word) (val : Option ν) : Option (Bool × LinkedList ν) :=
  if val = none then some (false, s)
  else
    match s.m_first with
    | none => (s.addFirst fresh val).map fun s => (true, s)
    | some obj =>
      (s.walk i.toNat 0 obj).bind fun (_, obj) =>
        (s.getFree fresh val).bind fun (another_obj, s) =>
          (s.mem obj).bind fun o =>
            let s := if o.next ≠ none then s.setNext another_obj o.next
              else some { s with m_last := some another_obj }
            s.bind fun s => (s.setNext obj (some another_obj)).map fun s =>
              (true, { s with m_size := s.m_size + 1 })

/-- The end `m_last` is not moved behind a node that is linked in by the loop. -/
def addAt (fresh : Ptr) (i : Word) (val : Option ν) : Option (Bool × LinkedList ν) :=
  if val = none then some (false, s)
  else
    match s.m_first with
    | none => (s.addFirst fresh val).map fun s => (true, s)
    | some obj =>
      if i = 0 then (s.addFirst fresh val).map fun s => (true, s)
      else
        (s.walk (i.toNat - 1) 0 obj).bind fun (_, obj) =>
          (s.getFree fresh val).bind fun (another_obj, s) =>
            (s.mem obj).bind fun o =>
              let s := if o.next ≠ none then s.setNext another_obj o.next else some s
              s.bind fun s => (s.setNext obj (some another_obj)).map fun s =>
                (true, { s with m_size := s.m_size + 1 })

/-- The first node is not given to the pool, nor deleted. -/
def deleteAt (i : Word) : Option (Bool × LinkedList ν) :=
  match s.m_first with
  | none => some (false, s)
  | some first =>
    if i = 0 then
      (s.mem first).map fun o =>
        if o.next = none then (true, { s with m_first := none, m_last := none, m_size := 0 })
        else (true, { s with m_first := o.next, m_size := s.m_size - 1 })
    else
      (s.walk (i.toNat - 1) 0 first).bind fun (c, obj) =>
        if c + 1 ≠ i.toNat then some (false, s)
        else
          (s.mem obj).bind fun o =>
            match o.next with
            | some tmp =>
              (s.mem tmp).bind fun t => (s.setNext obj t.next).bind fun s =>
                let s := if some tmp = s.m_last then { s with m_last := t.next } else s
                let s := if t.next = none then { s with m_last := some obj } else s
                (({ s with m_size := s.m_size - 1 } : LinkedList ν).free tmp).map fun s => (true, s)
            | none =>
              (({ s with m_first := none, m_last := none, m_size := 0 } : LinkedList ν).free obj).map
                fun s => (true, s)

end LinkedList

end CxxKernel.Containers
