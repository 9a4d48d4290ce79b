/-!
# Operations on a state

An operation reads and changes a state, and returns a value or fails. What it changed before it
failed stays changed.
-/

namespace ChainSync

/-- An operation on states of type `σ` that may fail with an `ε`. -/
abbrev Operation (ε σ : Type) : Type → Type := ExceptT ε (StateM σ)

namespace Operation

variable {ε δ σ τ α : Type}

/-- Runs an operation: its result and the state after it. -/
def exec (act : Operation ε σ α) (s : σ) : Except ε α × σ := act s

/-- The operation that computes its result and the state after it. -/
def ofFun (f : σ → Except ε α × σ) : Operation ε σ α := f

/-- An operation on a part of the state, whose failures are told in the words of the whole. -/
def onPart (part : σ → τ) (replace : τ → σ → σ) (tell : δ → ε) (act : Operation δ τ α) :
    Operation ε σ α :=
  ofFun fun s =>
    let (result, t) := act.exec (part s)
    (result.mapError tell, replace t s)

def reading (f : σ → Except ε α) : Operation ε σ α := ofFun fun s => (f s, s)

/-- A change of the state that may fail, and then changes nothing. -/
def changing (f : σ → Except ε σ) : Operation ε σ Unit :=
  ofFun fun s =>
    match f s with
    | .ok t => (.ok (), t)
    | .error e => (.error e, s)

/-! What each operation does when it is run. -/

/-- An operation that is given by a function runs as the function. -/
@[simp]
theorem exec_ofFun (f : σ → Except ε α × σ) (s : σ) : (ofFun f).exec s = f s := rfl

/-- A value without an effect leaves the state. -/
@[simp]
theorem exec_pure (x : α) (s : σ) : (pure x : Operation ε σ α).exec s = (.ok x, s) := rfl

/-- A failure leaves the state. -/
@[simp]
theorem exec_throw (e : ε) (s : σ) : (throw e : Operation ε σ α).exec s = (.error e, s) := rfl

/-- The state is read as it is. -/
@[simp]
theorem exec_get (s : σ) : (get : Operation ε σ σ).exec s = (.ok s, s) := rfl

/-- The state is replaced. -/
@[simp]
theorem exec_set (s t : σ) : (set t : Operation ε σ PUnit).exec s = (.ok ⟨⟩, t) := rfl

/-- The state is changed by a function. -/
@[simp]
theorem exec_modify (f : σ → σ) (s : σ) :
    (modify f : Operation ε σ PUnit).exec s = (.ok ⟨⟩, f s) := rfl

/-- The second operation starts where the first one ended, unless that failed. -/
@[simp]
theorem exec_bind {β : Type} (act : Operation ε σ α) (next : α → Operation ε σ β) (s : σ) :
    (act >>= next).exec s =
      match act.exec s with
      | (.ok x, t) => (next x).exec t
      | (.error e, t) => (.error e, t) := by
  change (ExceptT.bind act next : StateM σ (Except ε β)) s = _
  rcases h : act.exec s with ⟨_ | _, t⟩ <;>
    · have h' : (act : StateM σ (Except ε α)) s = _ := h
      simp only [ExceptT.bind, ExceptT.mk, bind, StateT.bind, h']
      rfl

/-- An operation on a part changes that part, and its failure is told in the words of the whole. -/
@[simp]
theorem exec_onPart (part : σ → τ) (replace : τ → σ → σ) (tell : δ → ε) (act : Operation δ τ α)
    (s : σ) :
    (onPart part replace tell act).exec s =
      ((act.exec (part s)).1.mapError tell, replace (act.exec (part s)).2 s) := rfl

/-- Reading leaves the state, whether it fails or not. -/
@[simp]
theorem exec_reading (f : σ → Except ε α) (s : σ) : (reading f).exec s = (f s, s) := rfl

/-- A change that fails leaves the state. -/
@[simp]
theorem exec_changing (f : σ → Except ε σ) (s : σ) :
    (changing f).exec s =
      match f s with
      | .ok t => (.ok (), t)
      | .error e => (.error e, s) := rfl

end Operation
end ChainSync
