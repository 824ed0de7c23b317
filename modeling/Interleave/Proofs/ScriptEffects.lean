import Interleave.Proofs.ScriptTables
import Mathlib.Logic.Relation
import Mathlib.Tactic.SplitIfs

/-! What running a script can do to its store. Every function of the evaluator and of the library is a sequence of six
kinds of change, whatever the script is and however its run ends. What each of them keeps is kept by every run. -/

namespace Interleave

structure Model.StepDecl.Sound {φ : Type} (step : Model.StepDecl φ) : Prop where
  known : step.kind ∈ Kind.known
  choices : 1 ≤ step.choices

theorem Kind.mem_known_of_parse {text : String} {k : Kind} (h : Kind.parse text = .ok k) : k ∈ Kind.known := by
  unfold Kind.parse at h
  dsimp only at h
  split_ifs at h
  · cases h
    decide
  · split at h
    · cases h
      exact List.mem_of_find?_eq_some ‹_›
    · cases h

namespace Script

/-- The changes that runs are made of. -/
inductive Effect : Store → Store → Prop
  | cells (s : Store) (cells : Array Value) : Effect s { s with cells }
  | closures (s : Store) (closures : Array Closure) : Effect s { s with closures }
  | newTable (s : Store) {t : Table} (h : t.WellFormed) : Effect s { s with tables := s.tables.push t }
  | changeTable (s : Store) (id : Nat) {f : Table → Table} (h : ∀ t, t.WellFormed → (f t).WellFormed) :
      Effect s { s with tables := s.tables.modify id f }
  | actor (s : Store) {a : Model.ActorDecl Value} (h : ∀ step ∈ a.steps, step.Sound) :
      Effect s { s with declarations := { s.declarations with actors := s.declarations.actors.push a } }
  | invariant (s : Store) (inv : Model.InvariantDecl Value) :
      Effect s { s with declarations := { s.declarations with invariants := s.declarations.invariants.push inv } }

abbrev Effects : Store → Store → Prop := Relation.ReflTransGen Effect

structure Store.Sound (s : Store) : Prop where
  globals : s.globals < s.tables.size
  tables : ∀ t ∈ s.tables, t.WellFormed
  declared : ∀ a ∈ s.declarations.actors, ∀ step ∈ a.steps, step.Sound

theorem Effect.sound {s s' : Store} (h : Effect s s') (hs : s.Sound) : s'.Sound := by
  obtain ⟨hglobals, htables, hdeclared⟩ := hs
  cases h with
  | cells => exact ⟨hglobals, htables, hdeclared⟩
  | closures => exact ⟨hglobals, htables, hdeclared⟩
  | newTable ht =>
    refine ⟨?_, ?_, hdeclared⟩
    · simp only [Array.size_push]
      omega
    · simp only [Array.mem_push]
      rintro t (hmem | rfl)
      exacts [htables t hmem, ht]
  | changeTable id hf =>
    refine ⟨by simpa using hglobals, ?_, hdeclared⟩
    intro t hmem
    obtain ⟨i, hi, rfl⟩ := Array.mem_iff_getElem.mp hmem
    simp only [Array.size_modify] at hi
    rw [Array.getElem_modify]
    split_ifs
    · exact hf _ (htables _ (Array.getElem_mem hi))
    · exact htables _ (Array.getElem_mem hi)
  | actor ha =>
    refine ⟨hglobals, htables, ?_⟩
    simp only [Array.mem_push]
    rintro a (hmem | rfl)
    exacts [hdeclared a hmem, ha]
  | invariant => exact ⟨hglobals, htables, hdeclared⟩

theorem Effects.sound {s s' : Store} (h : Effects s s') (hs : s.Sound) : s'.Sound := by
  induction h with
  | refl => exact hs
  | tail _ hstep ih => exact hstep.sound ih

variable {α β : Type}

def Run.left (r : EStateM.Result Raise Store α) : Store :=
  match r with
  | .ok _ s => s
  | .error _ s => s

/-- All that a run does to a store is a sequence of effects. -/
def Run.Effective (x : Run α) : Prop := ∀ s, Effects s (Run.left (x s))

def Run.Yields (x : Run α) (Q : α → Prop) : Prop := ∀ s a s', x s = .ok a s' → Q a

namespace Run

theorem bind_eq (x : Run α) (f : α → Run β) (s : Store) :
    (x >>= f) s = match x s with
      | .ok a s => f a s
      | .error e s => .error e s := by
  show EStateM.bind x f s = _
  unfold EStateM.bind
  split <;> simp_all

theorem effective_pure (a : α) : Effective (pure a : Run α) := fun _ => .refl

theorem effective_throw (e : Raise) : Effective (throw e : Run α) := fun _ => .refl

theorem effective_get : Effective (get : Run Store) := fun _ => .refl

theorem effective_bind_of_yields {x : Run α} {f : α → Run β} {Q : α → Prop} (hx : Effective x) (hyields : Yields x Q)
    (hf : ∀ a, Q a → Effective (f a)) : Effective (x >>= f) := by
  intro s
  have hfirst := hx s
  rw [bind_eq]
  split <;> rename_i heq <;> rw [heq] at hfirst
  · exact hfirst.trans (hf _ (hyields _ _ _ heq) _)
  · exact hfirst

theorem effective_bind {x : Run α} {f : α → Run β} (hx : Effective x) (hf : ∀ a, Effective (f a)) :
    Effective (x >>= f) :=
  effective_bind_of_yields hx (fun _ _ _ _ => trivial) fun a _ => hf a

theorem yields_pure {a : α} {Q : α → Prop} (h : Q a) : Yields (pure a : Run α) Q := by
  rintro s b s' ⟨⟩
  exact h

theorem yields_throw (e : Raise) (Q : α → Prop) : Yields (throw e : Run α) Q := by rintro s b s' ⟨⟩

theorem yields_bind {x : Run α} {f : α → Run β} {P : α → Prop} {Q : β → Prop} (hx : Yields x P)
    (hf : ∀ a, P a → Yields (f a) Q) : Yields (x >>= f) Q := by
  intro s b s' h
  rw [bind_eq] at h
  split at h
  · exact hf _ (hx _ _ _ ‹_›) _ _ _ h
  · cases h

theorem yields_true (x : Run α) : Yields x fun _ => True := fun _ _ _ _ => trivial

attribute [grind ←] effective_pure effective_throw effective_get effective_bind

@[grind ←] theorem effective_mapM {f : α → Run β} (hf : ∀ a, Effective (f a)) (l : List α) :
    Effective (l.mapM f) := by
  induction l with
  | nil => exact effective_pure _
  | cons a l ih =>
    rw [List.mapM_cons]
    grind

theorem yields_mapM {f : α → Run β} {Q : β → Prop} (hf : ∀ a, Yields (f a) Q) (l : List α) :
    Yields (l.mapM f) fun bs => ∀ b ∈ bs, Q b := by
  induction l with
  | nil => exact yields_pure (by simp)
  | cons a l ih =>
    rw [List.mapM_cons]
    exact yields_bind (hf a) fun b hb => yields_bind ih fun bs hbs => yields_pure (by simpa using ⟨hb, hbs⟩)

@[grind ←] theorem effective_foldlM {f : β → α → Run β} (hf : ∀ b a, Effective (f b a)) (b : β) (l : List α) :
    Effective (l.foldlM f b) := by
  induction l generalizing b with
  | nil => exact effective_pure _
  | cons a l ih =>
    rw [List.foldlM_cons]
    grind

end Run

open Run

@[grind ←] theorem exhausted_effective : Effective (exhausted : Run α) := effective_throw _

@[grind ←] theorem raise_effective (message : ByteArray) : Effective (raise message : Run α) := effective_throw _

@[grind ←] theorem newCell_effective (v : Value) : Effective (newCell v) := fun s => .single (.cells s _)

@[grind ←] theorem writeCell_effective (i : Nat) (v : Value) : Effective (writeCell i v) :=
  fun s => .single (.cells s _)

@[grind ←] theorem readCell_effective (i : Nat) : Effective (readCell i) := by
  unfold readCell
  grind

@[grind ←] theorem newClosure_effective (c : Closure) : Effective (newClosure c) := fun s => .single (.closures s _)

@[grind ←] theorem newTable_effective {t : Table} (h : t.WellFormed) : Effective (newTable t) := fun s =>
  .single (.newTable s h)

@[grind ←] theorem readTable_effective (id : Nat) : Effective (readTable id) := by
  unfold readTable
  grind

@[grind ←] theorem changeTable_effective (id : Nat) {f : Table → Table} (h : ∀ t, t.WellFormed → (f t).WellFormed) :
    Effective (changeTable id f) := fun s => .single (.changeTable s id h)

attribute [grind ←] Table.wellFormed_empty Table.wellFormed_row Table.WellFormed.set Table.WellFormed.fillRow
  Table.WellFormed.metatable Table.WellFormed.shiftUp Table.WellFormed.shiftDown Table.WellFormed.foldl_setInt

@[grind ←] theorem positionAt_effective (sites : Sites) (level : Int) : Effective (positionAt sites level) := by
  unfold positionAt
  grind

@[grind ←] theorem fault_effective (sites : Sites) (message : ByteArray) : Effective (fault sites message : Run α) := by
  unfold fault
  grind

@[grind ←] theorem faultAt_effective (line : Nat) (message : String) : Effective (faultAt line message : Run α) := by
  unfold faultAt
  grind

@[grind ←] theorem argumentFault_effective (sites : Sites) (i : Int) (message : String) :
    Effective (argumentFault sites i message : Run α) := fault_effective _ _

@[grind ←] theorem checkKey_effective (line : Nat) (key : Value) : Effective (checkKey line key) := by
  unfold checkKey
  grind

namespace Library

variable (site : Site)

@[grind ←] theorem faultText_effective (message : String) : Effective (faultText site message : Run α) :=
  fault_effective _ _

@[grind ←] theorem wrongType_effective (i : Int) (expected : String) (v : Option Value) :
    Effective (wrongType site i expected v : Run α) := argumentFault_effective _ _ _

@[grind ←] theorem require_effective (condition : Bool) (i : Nat) (message : String) :
    Effective (require site condition i message) := by
  unfold require
  grind

@[grind ←] theorem stringArg_effective (i : Nat) : Effective (stringArg site i) := by
  unfold stringArg
  grind

@[grind ←] theorem stringArgD_effective (i : Nat) (default : ByteArray) : Effective (stringArgD site i default) := by
  unfold stringArgD
  grind

@[grind ←] theorem numberArg_effective (i : Nat) : Effective (numberArg site i) := by
  unfold numberArg
  grind

@[grind ←] theorem integerArg_effective (i : Nat) : Effective (integerArg site i) := by
  unfold integerArg
  grind

@[grind ←] theorem integerArgD_effective (i : Nat) (default : Int) : Effective (integerArgD site i default) := by
  unfold integerArgD
  grind

@[grind ←] theorem tableArg_effective (i : Nat) : Effective (tableArg site i) := by
  unfold tableArg
  grind

@[grind ←] theorem functionArg_effective (i : Nat) : Effective (functionArg site i) := by
  unfold functionArg
  grind

@[grind ←] theorem anyArg_effective (i : Nat) : Effective (anyArg site i) := by
  unfold anyArg
  grind

@[grind ←] theorem raiseValue_effective : Effective (raiseValue site : Run α) := by
  unfold raiseValue
  grind

@[grind ←] theorem assertion_effective : Effective (assertion site) := by
  unfold assertion
  grind

@[grind ←] theorem fold_effective (f : Double → Double → Double) : Effective (fold site f) := by
  unfold fold
  grind

@[grind ←] theorem toNumber_effective : Effective (toNumber site) := by
  unfold toNumber
  grind

@[grind ←] theorem selectArgs_effective : Effective (selectArgs site) := by
  unfold selectArgs
  grind

@[grind ←] theorem setMetatable_effective : Effective (setMetatable site) := by
  unfold setMetatable
  grind +splitImp

@[grind ←] theorem getMetatable_effective : Effective (getMetatable site) := by
  unfold getMetatable
  grind

@[grind ←] theorem nextItem_effective : Effective (nextItem site) := by
  unfold nextItem
  grind

@[grind ←] theorem nextEntry_effective : Effective (nextEntry site) := by
  unfold nextEntry
  grind

@[grind ←] theorem rawLength_effective : Effective (rawLength site) := by
  unfold rawLength
  grind

@[grind ←] theorem repeatString_effective : Effective (repeatString site) := by
  unfold repeatString
  grind

@[grind ←] theorem formatOne_effective (d : Directive) (i : Nat) : Effective (formatOne site d i) := by
  unfold formatOne
  grind

@[grind ←] theorem formatFrom_effective (fuel : Nat) (cs : List Char) (i : Nat) (acc : ByteArray) :
    Effective (formatFrom site fuel cs i acc) := by
  induction fuel generalizing cs i acc with
  | zero => exact effective_pure _
  | succ fuel ih =>
    unfold formatFrom
    grind

@[grind ←] theorem format_effective : Effective (format site) := by
  unfold format
  grind

@[grind ←] theorem bytesAt_effective : Effective (bytesAt site) := by
  unfold bytesAt
  grind

@[grind ←] theorem charsOf_effective : Effective (charsOf site) := by
  unfold charsOf
  grind

@[grind ←] theorem insertItem_effective : Effective (insertItem site) := by
  unfold insertItem Table.setInt
  grind +splitImp

@[grind ←] theorem removeItem_effective : Effective (removeItem site) := by
  unfold removeItem
  refine effective_bind (tableArg_effective _ _) fun id => effective_bind (readTable_effective _) fun t =>
    effective_bind (integerArgD_effective _ _ _) fun i => ?_
  have hremove : ∀ size, Effective (do
      let removed := (← readTable id).getInt i
      changeTable id fun t => (shiftDown t i (size - i).toNat).setInt (max i size) .nil
      return removed) := fun size =>
    effective_bind (readTable_effective _) fun _ =>
      effective_bind (changeTable_effective _ fun _ h => (h.shiftDown _ _).set _ _) fun _ => effective_pure _
  split_ifs
  · exact effective_bind (require_effective _ _ _ _) fun _ => hremove _
  · exact hremove _

@[grind ←] theorem unpack_effective : Effective (unpack site) := by
  unfold unpack
  grind

@[grind ←] theorem concat_effective : Effective (concat site) := by
  unfold concat
  refine effective_bind (tableArg_effective _ _) fun id => effective_bind (readTable_effective _) fun t =>
    effective_bind (stringArgD_effective _ _ _) fun separator =>
      effective_bind (integerArgD_effective _ _ _) fun first =>
        effective_bind (integerArgD_effective _ _ _) fun last => effective_bind (effective_mapM ?_ _) ?_
  · grind
  · grind

structure Tame (c : Calls) : Prop where
  call : ∀ f args, Effective (c.call f args)
  index : ∀ v key, Effective (c.index v key)

attribute [grind ←] Tame.call Tame.index

variable {c : Calls}

@[grind ←] theorem protectedCall_effective (hc : Tame c) : Effective (protectedCall c site) := by
  unfold protectedCall
  refine effective_bind (anyArg_effective _ _) fun f s => ?_
  have hcall := hc.call f (site.args.drop 1) s
  split <;> simp_all [left]

@[grind ←] theorem insertDescending_effective {less : Value → Value → Run Bool} (hless : ∀ v w, Effective (less v w))
    (v : Value) (l : List Value) : Effective (insertDescending less v l) := by
  induction l with
  | nil => exact effective_pure _
  | cons w l ih =>
    unfold insertDescending
    grind

@[grind ←] theorem sort_effective (hc : Tame c) : Effective (sort c site) := by
  unfold sort
  refine effective_bind (tableArg_effective _ _) fun id => effective_bind (readTable_effective _) fun t => ?_
  -- The comparison is chosen first; what follows is the same for both choices.
  extract_lets items rest
  have hrest : ∀ less : Value → Value → Run Bool, (∀ v w, Effective (less v w)) → Effective (rest less) := by
    intro less hless
    refine effective_bind (effective_foldlM (fun acc v => insertDescending_effective hless v acc) _ _) fun descending =>
      effective_bind (changeTable_effective _ fun _ h => h.foldl_setInt _) fun _ => ?_
    split
    · grind
    · exact effective_pure _
  split_ifs
  · refine effective_bind (functionArg_effective _ _) fun f => hrest _ fun v w => ?_
    grind
  · refine hrest _ fun v w => ?_
    grind

@[grind ←] theorem textField_effective (hc : Tame c) (step : Value) (name : String) :
    Effective (textField c site step name) := by
  unfold textField
  grind

@[grind ←] theorem functionField_effective (hc : Tame c) (step : Value) (name place : String) :
    Effective (functionField c site step name place) := by
  unfold functionField
  grind

@[grind ←] theorem readStep_effective (hc : Tame c) (place : String) (step : Value) :
    Effective (readStep c site place step) := by
  unfold readStep
  refine effective_bind (textField_effective _ hc _ _) fun kindName => ?_
  split <;>
    refine effective_bind (by grind) fun kind => effective_bind (textField_effective _ hc _ _) fun resource =>
      effective_bind (textField_effective _ hc _ _) fun label => effective_bind (hc.index _ _) fun choices => ?_
  · grind
  · grind

theorem readStep_yields (c : Calls) (place : String) (step : Value) :
    Yields (readStep c site place step) Model.StepDecl.Sound := by
  have hfault : ∀ {β : Type} (message : String) (Q : β → Prop), Yields (faultText site message : Run β) Q :=
    fun message Q => yields_bind (yields_true _) fun _ _ => yields_throw _ Q
  have hrest : ∀ kind ∈ Kind.known, ∀ resource label : String, ∀ choices : Int, 1 ≤ choices → Yields (do
      let run ← functionField c site step "run" place
      let guard ← functionField c site step "guard" place
      return ({ kind, resource, label, choices, run, guard } : Model.StepDecl Value)) Model.StepDecl.Sound :=
    fun kind hkind resource label choices hchoices =>
      yields_bind (yields_true _) fun _ _ => yields_bind (yields_true _) fun _ _ => yields_pure ⟨hkind, hchoices⟩
  unfold readStep
  refine yields_bind (yields_true _) fun kindName _ => ?_
  split
  · refine yields_bind (yields_pure (Kind.mem_known_of_parse ‹_›)) fun kind hkind =>
      yields_bind (yields_true _) fun resource _ => yields_bind (yields_true _) fun label _ =>
        yields_bind (yields_true _) fun choices _ => ?_
    split
    · exact yields_bind (yields_pure (Int.le_refl 1)) fun choices hchoices =>
        hrest kind hkind resource label choices hchoices
    · split
      · split_ifs with hpositive
        · exact yields_bind (yields_pure hpositive) fun choices hchoices =>
            hrest kind hkind resource label choices hchoices
        · exact yields_bind (hfault _ fun _ => False) fun _ hfalse => hfalse.elim
      · exact yields_bind (hfault _ fun _ => False) fun _ hfalse => hfalse.elim
  · exact yields_bind (hfault _ fun _ => False) fun _ hfalse => hfalse.elim

@[grind ←] theorem declareActor_effective (hc : Tame c) : Effective (declareActor c site) := by
  unfold declareActor
  refine effective_bind (stringArg_effective _ _) fun name => effective_bind (tableArg_effective _ _) fun id =>
    effective_bind (readTable_effective _) fun t => ?_
  extract_lets rest
  have hrest : ∀ done, Effective (rest done) := by
    intro done
    refine effective_bind_of_yields (effective_mapM (by grind) _) (yields_mapM (Q := Model.StepDecl.Sound) ?_ _)
      fun steps hsteps s => .single (.actor s hsteps)
    intro i
    dsimp only
    split
    · exact readStep_yields _ _ _ _
    · exact yields_bind (yields_true _) fun _ _ => yields_throw _ _
  split_ifs
  · exact effective_bind (faultText_effective _ _) hrest
  · exact hrest ()

@[grind ←] theorem declareInvariant_effective : Effective (declareInvariant site) := by
  unfold declareInvariant
  exact effective_bind (stringArg_effective _ _) fun _ => effective_bind (functionArg_effective _ _) fun _ s =>
    .single (.invariant s _)

end Library

open Library in
@[grind ←] theorem Builtin.run_effective (b : Builtin) {c : Calls} (hc : Tame c) (sites : Sites) (args : List Value) :
    Effective (b.run c sites args) := by
  cases b <;> simp only [Builtin.run] <;> grind +splitImp

namespace Eval

structure Harmless (fuel : Nat) : Prop where
  eval : ∀ fr env e, Effective (eval fuel fr env e)
  evalAll : ∀ fr env e, Effective (evalAll fuel fr env e)
  evalList : ∀ fr env es, Effective (evalList fuel fr env es)
  evalItems : ∀ fr env id items, Effective (evalItems fuel fr env id items)
  index : ∀ sites object key, Effective (index fuel sites object key)
  apply : ∀ sites f args, Effective (apply fuel sites f args)
  execFrom : ∀ fr env all rest seen, Effective (execFrom fuel fr env all rest seen)
  exec : ∀ fr env s, Effective (exec fuel fr env s)
  countLoop : ∀ fr env name i last by_ body, Effective (countLoop fuel fr env name i last by_ body)
  eachLoop : ∀ fr env names f state control body line,
    Effective (eachLoop fuel fr env names f state control body line)
  evalPlaces : ∀ fr env targets, Effective (evalPlaces fuel fr env targets)
  assignAll : ∀ fr env line pairs, Effective (assignAll fuel fr env line pairs)

attribute [grind ←] Harmless.eval Harmless.evalAll Harmless.evalList Harmless.evalItems Harmless.index Harmless.apply
  Harmless.execFrom Harmless.exec Harmless.countLoop Harmless.eachLoop Harmless.evalPlaces Harmless.assignAll

@[grind ←] theorem bindAll_effective (depth : Nat) (env : Env) (names : List String) (values : List Value) :
    Effective (bindAll depth env names values) := by
  unfold bindAll
  grind

@[grind ←] theorem strict_effective (op : BinaryOp) (v w : Value) (line : Nat) (left right : Option (String × String)) :
    Effective (strict op v w line left right) := by
  have hordered : ∀ answer v w, Effective (strict.ordered line answer v w) := by
    intro answer v w
    unfold strict.ordered
    grind
  unfold strict
  split <;> grind

variable {fuel : Nat} (h : Harmless fuel)

include h

theorem eval_effective (fr : Frame) (env : Env) (e : Expr) : Effective (eval (fuel + 1) fr env e) := by
  unfold eval
  cases e <;> dsimp only <;> grind +splitImp

theorem evalAll_effective (fr : Frame) (env : Env) (e : Expr) : Effective (evalAll (fuel + 1) fr env e) := by
  unfold evalAll
  grind

theorem evalList_effective (fr : Frame) (env : Env) (es : List Expr) : Effective (evalList (fuel + 1) fr env es) := by
  unfold evalList
  grind

theorem evalItems_effective (fr : Frame) (env : Env) (id : Nat) (items : List Item) :
    Effective (evalItems (fuel + 1) fr env id items) := by
  unfold evalItems
  grind +splitImp

theorem index_effective (sites : Sites) (object key : Value) : Effective (index (fuel + 1) sites object key) := by
  unfold index
  split
  · refine effective_bind (readTable_effective _) fun t => ?_
    split
    · refine effective_bind (readTable_effective _) fun handlers => ?_
      split <;> grind
    · exact effective_pure _
  · grind
  · exact effective_pure _

theorem apply_effective (sites : Sites) (f : Value) (args : List Value) :
    Effective (apply (fuel + 1) sites f args) := by
  unfold apply
  split
  · exact Builtin.run_effective _ ⟨fun f args => h.apply _ f args, by grind⟩ _ _
  · grind
  · exact fault_effective _ _

theorem execFrom_effective (fr : Frame) (env : Env) (all rest : List Stat) (seen : List (String × Env)) :
    Effective (execFrom (fuel + 1) fr env all rest seen) := by
  unfold execFrom
  grind

theorem exec_effective (fr : Frame) (env : Env) (s : Stat) : Effective (exec (fuel + 1) fr env s) := by
  unfold exec
  cases s with
  | count name start limit step body line =>
    refine effective_bind (h.eval _ _ _) fun start => effective_bind (h.eval _ _ _) fun limit => ?_
    split <;>
      · refine effective_bind (by grind) fun step => ?_
        dsimp only
        split <;> grind
  | _ => grind

theorem countLoop_effective (fr : Frame) (env : Env) (name : String) (i last by_ : Double) (body : List Stat) :
    Effective (countLoop (fuel + 1) fr env name i last by_ body) := by
  unfold countLoop
  grind

theorem eachLoop_effective (fr : Frame) (env : Env) (names : List String) (f state control : Value) (body : List Stat)
    (line : Nat) : Effective (eachLoop (fuel + 1) fr env names f state control body line) := by
  unfold eachLoop
  grind

theorem evalPlaces_effective (fr : Frame) (env : Env) (targets : List Expr) :
    Effective (evalPlaces (fuel + 1) fr env targets) := by
  unfold evalPlaces
  grind

theorem assignAll_effective (fr : Frame) (env : Env) (line : Nat) (pairs : List (Place × Value)) :
    Effective (assignAll (fuel + 1) fr env line pairs) := by
  unfold assignAll
  grind +splitImp

omit h in
theorem harmless (fuel : Nat) : Harmless fuel := by
  -- The induction over the fuel: all functions of the evaluator call each other with less of it.
  induction fuel with
  | zero => constructor <;> intros <;> exact exhausted_effective
  | succ fuel ih =>
    exact {
      eval := eval_effective ih
      evalAll := evalAll_effective ih
      evalList := evalList_effective ih
      evalItems := evalItems_effective ih
      index := index_effective ih
      apply := apply_effective ih
      execFrom := execFrom_effective ih
      exec := exec_effective ih
      countLoop := countLoop_effective ih
      eachLoop := eachLoop_effective ih
      evalPlaces := evalPlaces_effective ih
      assignAll := assignAll_effective ih }

end Eval

namespace Store

theorem call_effects (f : Value) (args : List Value) (s : Store) : Effects s (s.call f args).2 := by
  have happly := (Eval.harmless bound).apply [] f args s
  unfold call
  split <;> simp_all [Run.left]

theorem runChunk_effects (f : Function) (s : Store) : Effects s (s.runChunk f).2 :=
  .head (.closures s _) (call_effects _ _ _)

theorem sound_initial (chunk : ByteArray) : (initial chunk).Sound where
  globals := by simp [initial]
  tables := by
    have htables : ∀ t ∈ (initial ByteArray.empty).tables, t.WellFormed := by decide +kernel
    exact htables
  declared := by simp [initial, Model.Declarations.empty]

theorem sound_runChunk (chunk : ByteArray) (f : Function) : ((initial chunk).runChunk f).2.Sound :=
  (runChunk_effects f _).sound (sound_initial chunk)

end Store

end Script

end Interleave
