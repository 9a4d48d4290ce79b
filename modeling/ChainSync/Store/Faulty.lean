import ChainSync.Store.KeyValue

/-!
# Stores that fail on schedule

A store in front of another one that makes one coming call fail, to rehearse what a failing disk
leaves behind.
-/

namespace ChainSync

/-- The calls that can be made to fail. -/
inductive StoreCall where
  | get
  | put
  | clear
deriving DecidableEq

/-- The failure to come: after `skip` more calls of this kind, one fails. -/
structure PlannedFault where
  call : StoreCall
  skip : Nat
deriving DecidableEq

/-- A store with at most one failure to come. -/
structure Faulty (κ : Type) where
  store : κ
  planned : Option PlannedFault := none

namespace Faulty

variable {κ α : Type}

/-- Counts a call, and fails if its turn has come. -/
def count (call : StoreCall) : StoreM (Faulty κ) Unit :=
  Operation.ofFun fun f =>
    match f.planned with
    | none => (.ok (), f)
    | some p =>
      if p.call = call then
        match p.skip with
        | 0 => (.error (.encode "injected"), { f with planned := none })
        | skip + 1 => (.ok (), { f with planned := some { p with skip } })
      else (.ok (), f)

def behind (act : StoreM κ α) : StoreM (Faulty κ) α :=
  act.onPart (·.store) (fun store f => { f with store }) id

/-- Calls that cannot be made to fail go straight to the store behind. The calls up to the failure to
come count with the rows: a walk that goes in a circle makes them all and ends with the failure. -/
instance [KeyValue κ] : KeyValue (Faulty κ) where
  empty := { store := KeyValue.empty }
  get k := do count .get; behind (KeyValue.get k)
  put k v := do count .put; behind (KeyValue.put k v)
  remove k := behind (KeyValue.remove k)
  contains k := behind (KeyValue.contains k)
  clear := do count .clear; behind KeyValue.clear
  size f := KeyValue.size f.store + f.planned.elim 0 (·.skip + 1)

end Faulty
end ChainSync
