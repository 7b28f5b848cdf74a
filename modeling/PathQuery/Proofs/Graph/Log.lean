import PathQuery.Proofs.Graph.Preserved

/-!
# Proofs/Graph/Log — fetching with a log of the batches that are pulled

Each step of a fetch once more, with a log: an event for each batch that is asked of a cursor, with the
number of documents that it took, and one for each child that is given up because it is exhausted.  Without
its log a step is the step itself (`result_fetchWithinLogged`).
-/

namespace PathQuery

/-! ## Logs -/

/-- What a fetch does on its way. -/
inductive Event where
  /-- A batch was asked of the cursor of a node, which took some number of documents. -/
  | pulled (id taken : Nat)
  /-- A child was exhausted and is reset. -/
  | retired (id : Nat)
deriving DecidableEq, Repr

/-- What was done, in its order. -/
abbrev Log := List Event

/-- What a step comes to, with what was done on its way. -/
structure Logged (α : Type) where
  result : α
  log : Log

namespace Logged

instance : Monad Logged where
  pure a := ⟨a, []⟩
  bind x k := ⟨(k x.result).result, x.log ++ (k x.result).log⟩

variable {α β : Type}

@[simp] theorem result_pure (a : α) : (pure a : Logged α).result = a := rfl

@[simp] theorem log_pure (a : α) : (pure a : Logged α).log = [] := rfl

@[simp] theorem result_bind (x : Logged α) (k : α → Logged β) : (x >>= k).result = (k x.result).result := rfl

@[simp] theorem log_bind (x : Logged α) (k : α → Logged β) :
    (x >>= k).log = x.log ++ (k x.result).log := rfl

end Logged

/-- The next batch of a cursor, asked for at a node. -/
def BatchCursor.nextBatchLogged (id : Nat) (b : BatchCursor) (c : Collection) :
    Logged (Except Failure Nat × BatchCursor × Collection) :=
  let next := b.nextBatch c
  ⟨next, [.pulled id (next.2.1.pulled - b.pulled)]⟩

namespace Fetcher

open Node

/-! ## Steps with a log -/

/-- `openCursor` with a log. -/
def openCursorLogged (f : Fetcher) (values : Option (List Value)) (n : Node) :
    Logged (Except Failure Unit × Node) :=
  if n.status ≠ .unready then pure (.error (.state (.alreadyPrepared n.name)), n)
  else
    match f.registry.fetchBatches (requestFor n values) f.batchSize with
    | .error e => pure (.error e, n)
    | .ok cursor =>
      let results := n.progress.results.purge
      if n.isLeaf then pure (.ok (), { n with progress := ⟨results, some cursor, []⟩ })
      else do
        match ← cursor.nextBatchLogged n.plan.id results with
        | (.error e, _, results) => pure (.error e, { n with progress := ⟨results, none, []⟩ })
        | (.ok _, cursor, results) => pure (.ok (), { n with progress := ⟨results, some cursor, []⟩ })

/-- `pull` with a log. -/
def pullLogged (n : Node) (cursor : BatchCursor) : Logged (Except Failure Nat × Node) := do
  let (pulled, cursor, results) ← cursor.nextBatchLogged n.plan.id n.progress.results.purge
  pure (pulled, { n with progress := { n.progress with results, cursor := some cursor } })

/-- `fetchLeaf` with a log. -/
def fetchLeafLogged (f : Fetcher) (n : Node) (cursor : BatchCursor) :
    Logged (Except Failure Outcome × Node) :=
  if cursor.hasMore then do
    match ← pullLogged n cursor with
    | (.error e, n) => pure (.error e, n)
    | (.ok _, n) =>
      let results := n.progress.results
      if results.isEmpty then pure (.ok .pending, n)
      else if n.isRoot then pure ((f.combination.combine n results []).map .batch, n)
      else pure (.ok (.batch results), n)
  else pure (.ok .exhausted, n)

/-- `advance` with a log. -/
def advanceLogged (n : Node) (cursor : BatchCursor) : Logged (Except Failure Outcome × Node) :=
  if cursor.hasMore then do
    match ← pullLogged n cursor with
    | (.error e, n) => pure (.error e, n)
    | (.ok _, n) => pure (.ok .pending, n.resetChildren)
  else pure (.ok .exhausted, n.reset)

/-- `turn` with a log. -/
def turnLogged (f : Fetcher) (fetch : Node → Logged (Except Failure Outcome × Node)) (n : Node) (i : Nat)
    (child : Node) : Logged (Except Failure Outcome × Node) :=
  match child.joinedStatus with
  | .complete => pure (.ok .exhausted, child)
  | .ready => fetch child
  | .unready =>
    match valuesFor n i child with
    | .error e => pure (.error e, child)
    | .ok values => do
      match ← f.openCursorLogged (some values) child with
      | (.error e, child) => pure (.error e, child)
      | (.ok (), child) => fetch child

/-- Gives up a child. -/
def retire (child : Node) : Logged Node := ⟨child.reset, [.retired child.plan.id]⟩

/-- `walk` with a log. -/
def walkLogged (f : Fetcher) (fetch : Node → Logged (Except Failure Outcome × Node)) :
    (steps i : Nat) → Node → Logged (Except Failure WalkEnd × Node)
  | 0, _, n => pure (.ok .unfinished, n)
  | steps + 1, i, n =>
    match n.children[i]? with
    | none => pure (.ok .joined, n)
    | some child => do
      match ← f.turnLogged fetch n i child with
      | (.error e, child) => pure (.error e, n.setChild i child)
      | (.ok .unfinished, child) => pure (.ok .unfinished, n.setChild i child)
      | (.ok .pending, child) => pure (.ok .pending, (n.setChild i child).keepBefore i)
      | (.ok (.batch results), child) =>
        walkLogged f fetch steps (i + 1) ((n.setChild i child).keepResults i results)
      | (.ok .exhausted, child) =>
        let n := (n.setChild i (← retire child)).keepBefore i
        match i with
        | 0 => pure (.ok .exhausted, n)
        | i + 1 => walkLogged f fetch steps i n

/-- `fetchWithin` with a log. -/
def fetchWithinLogged (f : Fetcher) : (height : Nat) → Node → Logged (Except Failure Outcome × Node)
  | 0, n => pure (.ok .unfinished, n)
  | height + 1, n =>
    match n.progress.cursor with
    | none => pure (.error (.state (.notPrepared n.name)), n)
    | some cursor =>
      if n.isLeaf then f.fetchLeafLogged n cursor
      else do
        match ← walkLogged f (fetchWithinLogged f height) f.steps (start n) n with
        | (.error e, n) => pure (.error e, n)
        | (.ok .unfinished, n) => pure (.ok .unfinished, n)
        | (.ok .pending, n) => pure (.ok .pending, n)
        | (.ok .exhausted, n) => advanceLogged n cursor
        | (.ok .joined, n) =>
          let combined := f.combination.combine n n.progress.results n.progress.childResults
          pure (combined.map .batch, n)

variable {f : Fetcher} {fetch : Node → Logged (Except Failure Outcome × Node)} {n child : Node}

/-! ## Steps without their logs -/

@[simp] theorem result_openCursorLogged (f : Fetcher) (values : Option (List Value)) (n : Node) :
    (f.openCursorLogged values n).result = f.openCursor values n := by
  rw [openCursorLogged, openCursor]
  split
  · rfl
  · cases f.registry.fetchBatches (requestFor n values) f.batchSize with
    | error e => rfl
    | ok b =>
      dsimp only
      split
      · rfl
      · rw [Logged.result_bind, BatchCursor.nextBatchLogged]
        generalize b.nextBatch n.progress.results.purge = next
        obtain ⟨_ | _, b', results⟩ := next <;> rfl

@[simp] theorem result_pullLogged (n : Node) (b : BatchCursor) : (pullLogged n b).result = pull n b := rfl

@[simp] theorem result_fetchLeafLogged (f : Fetcher) (n : Node) (b : BatchCursor) :
    (f.fetchLeafLogged n b).result = f.fetchLeaf n b := by
  rw [fetchLeafLogged, fetchLeaf]
  split
  · rw [Logged.result_bind, result_pullLogged]
    generalize pull n b = pulled
    obtain ⟨_ | _, m⟩ := pulled
    · rfl
    · dsimp only
      split
      · rfl
      · split <;> rfl
  · rfl

@[simp] theorem result_advanceLogged (n : Node) (b : BatchCursor) :
    (advanceLogged n b).result = advance n b := by
  rw [advanceLogged, advance]
  split
  · rw [Logged.result_bind, result_pullLogged]
    generalize pull n b = pulled
    obtain ⟨_ | _, m⟩ := pulled <;> rfl
  · rfl

@[simp] theorem result_turnLogged (f : Fetcher) (fetch : Node → Logged (Except Failure Outcome × Node))
    (n : Node) (i : Nat) (child : Node) :
    (f.turnLogged fetch n i child).result = f.turn (fun n => (fetch n).result) n i child := by
  rw [turnLogged, turn]
  cases child.joinedStatus with
  | complete => rfl
  | ready => rfl
  | unready =>
    cases valuesFor n i child with
    | error e => rfl
    | ok values =>
      dsimp only
      rw [Logged.result_bind, result_openCursorLogged]
      generalize f.openCursor (some values) child = opened
      obtain ⟨_ | _, m⟩ := opened <;> rfl

@[simp] theorem result_walkLogged (f : Fetcher) (fetch : Node → Logged (Except Failure Outcome × Node))
    (steps i : Nat) (n : Node) :
    (f.walkLogged fetch steps i n).result = f.walk (fun n => (fetch n).result) steps i n := by
  induction steps generalizing i n with
  | zero => rfl
  | succ steps ih =>
    rw [walkLogged, walk]
    cases n.children[i]? with
    | none => rfl
    | some child =>
      dsimp only
      rw [Logged.result_bind, result_turnLogged]
      generalize f.turn (fun n => (fetch n).result) n i child = turned
      obtain ⟨_ | _ | _ | _ | _, child'⟩ := turned
      · rfl
      · exact ih (i + 1) _
      · rfl
      · cases i with
        | zero => rfl
        | succ i => exact ih i _
      · rfl

/-- **Without its log a fetch is the fetch itself.** -/
@[simp] theorem result_fetchWithinLogged (f : Fetcher) (height : Nat) (n : Node) :
    (f.fetchWithinLogged height n).result = f.fetchWithin height n := by
  induction height generalizing n with
  | zero => rfl
  | succ height ih =>
    rw [fetchWithinLogged, fetchWithin]
    cases n.progress.cursor with
    | none => rfl
    | some b =>
      dsimp only
      split
      · exact result_fetchLeafLogged f n b
      · rw [Logged.result_bind, result_walkLogged, funext ih]
        generalize f.walk (f.fetchWithin height) f.steps (start n) n = walked
        obtain ⟨_ | _ | _ | _ | _, m⟩ := walked
        · rfl
        · rfl
        · rfl
        · exact result_advanceLogged m b
        · rfl

end Fetcher

/-- `fetch` with a log. -/
def Graph.fetchLogged (g : Graph) : Logged (Except Failure Outcome × Graph) := do
  let (outcome, root) ← g.fetcher.fetchWithinLogged g.root.height g.root
  pure (outcome, { g with root })

@[simp] theorem Graph.result_fetchLogged (g : Graph) : g.fetchLogged.result = g.fetch := by
  rw [fetchLogged, Logged.result_bind, Fetcher.result_fetchWithinLogged]
  rfl

end PathQuery
