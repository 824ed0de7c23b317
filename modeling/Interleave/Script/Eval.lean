import Interleave.Double.Power
import Interleave.Script.Library

/-! Evaluation of chunks. Every function takes fuel, which bounds the depth of the evaluation; a run that ends
does so with the same outcome under more fuel. -/

namespace Interleave.Script

structure Frame where
  callers : Sites
  depth : Nat
  varargs : List Value

inductive Flow where
  | next
  | ret (values : List Value)
  | tail (f : Value) (args : List Value)
  | leave
  | jump (target : String)

inductive Place where
  | cell (i : Nat)
  | slot (object key : Value) (target : Expr)

namespace Eval

/-- Calls nested deeper than this are refused. -/
def maxCalls : Nat := 3000

def lookup? (env : Env) (n : String) : Option Binding := env.find? (·.name = n)

def describe? (env : Env) (depth : Nat) : Expr → Option (String × String)
  | .name n =>
    match lookup? env n with
    | some b => some (if b.depth = depth then "local" else "upvalue", n)
    | none => some ("global", n)
  | .index _ (.string k) _ => some ("field", Text.ofBytes k)
  | .index .. => some ("field", "?")
  | .method _ n _ _ _ => some ("method", n)
  | .parens e => describe? env depth e
  | _ => none

def typeMessage (operation : String) (v : Value) : Option (String × String) → String
  | some (kind, name) => s!"attempt to {operation} {kind} '{name}' (a {v.typeName} value)"
  | none => s!"attempt to {operation} a {v.typeName} value"

def arith : BinaryOp → Double → Double → Double
  | .add, x, y => x.add y
  | .sub, x, y => x.sub y
  | .mul, x, y => x.mul y
  | .div, x, y => x.div y
  | .mod, x, y => x.mod y
  | _, x, y =>
    match x.toInt?, y.toInt? with
    | some 10, some n => Double.powerOfTen n
    | _, _ => x.pow y

def adjust : Nat → List Value → List Value
  | 0, _ => []
  | n + 1, [] => .nil :: adjust n []
  | n + 1, v :: vs => v :: adjust n vs

def bindAll (depth : Nat) (env : Env) (names : List String) (values : List Value) : Run Env :=
  (names.zip (adjust names.length values)).foldlM (fun env (name, v) => do
    return ⟨name, ← newCell v, depth⟩ :: env) env

def afterLabel? (target : String) : List Stat → Option (List Stat)
  | [] => none
  | .label n :: rest => if n = target then some rest else afterLabel? target rest
  | _ :: rest => afterLabel? target rest

def strict (op : BinaryOp) (v w : Value) (line : Nat) (left right : Option (String × String)) :
    Run Value :=
  match op with
  | .eq => return .bool (v.rawEquals w)
  | .ne => return .bool (!v.rawEquals w)
  | .lt => ordered (lessThan? v w) v w
  | .le => ordered (atMost? v w) v w
  | .gt => ordered (lessThan? w v) w v
  | .ge => ordered (atMost? w v) w v
  | .concat =>
    match v.toBytes?, w.toBytes? with
    | some s, some t => return .string (s ++ t)
    | none, _ => faultAt line (typeMessage "concatenate" v left)
    | _, none => faultAt line (typeMessage "concatenate" w right)
  | op =>
    match v.toNumber?, w.toNumber? with
    | some x, some y => return .number (arith op x y)
    | none, _ => faultAt line (typeMessage "perform arithmetic on" v left)
    | _, none => faultAt line (typeMessage "perform arithmetic on" w right)
where
  ordered (answer : Option Bool) (v w : Value) : Run Value :=
    match answer with
    | some b => return .bool b
    | none => faultAt line (unordered v w)

mutual

def eval (fuel : Nat) (fr : Frame) (env : Env) (e : Expr) : Run Value :=
  match fuel with
  | 0 => exhausted
  | fuel + 1 =>
    match e with
    | .nil => return .nil
    | .bool b => return .bool b
    | .number x => return .number x
    | .string s => return .string s
    | .vararg => return fr.varargs.headD .nil
    | .function f => newClosure ⟨f, env, fr.depth + 1⟩
    | .name n =>
      match lookup? env n with
      | some b => readCell b.cell
      | none => do
        let globals := (← get).globals
        return (← index fuel fr.callers (.table globals) (.text n)).getD .nil
    | .index object key line => do
      let v ← eval fuel fr env object
      let k ← eval fuel fr env key
      match ← index fuel (some line :: fr.callers) v k with
      | some r => return r
      | none => faultAt line (typeMessage "index" v (describe? env fr.depth object))
    | .call .. | .method .. => do return (← evalAll fuel fr env e).headD .nil
    | .table items => do
      let id ← newTable .empty
      let row ← evalItems fuel fr env id items
      changeTable id fun t => t.fillRow row
      return .table id
    | .binary op left right line => do
      let v ← eval fuel fr env left
      let w ← eval fuel fr env right
      strict op v w line (describe? env fr.depth left) (describe? env fr.depth right)
    | .unary op operand line => do
      let v ← eval fuel fr env operand
      match op with
      | .not => return .bool !v.truthy
      | .negate =>
        match v.toNumber? with
        | some x => return .number x.neg
        | none => faultAt line (typeMessage "perform arithmetic on" v (describe? env fr.depth operand))
      | .length =>
        match v with
        | .string s => return .int s.size
        | .table id => return .int (← readTable id).length
        | _ => faultAt line (typeMessage "get length of" v (describe? env fr.depth operand))
    | .and left right => do
      let v ← eval fuel fr env left
      if v.truthy then eval fuel fr env right else return v
    | .or left right => do
      let v ← eval fuel fr env left
      if v.truthy then return v else eval fuel fr env right
    | .parens inner => eval fuel fr env inner

def evalAll (fuel : Nat) (fr : Frame) (env : Env) (e : Expr) : Run (List Value) :=
  match fuel with
  | 0 => exhausted
  | fuel + 1 =>
    match e with
    | .vararg => return fr.varargs
    | .call callee args line => do
      let f ← eval fuel fr env callee
      let vs ← evalList fuel fr env args
      if f.isFunction then apply fuel (some line :: fr.callers) f vs
      else faultAt line (typeMessage "call" f (describe? env fr.depth callee))
    | .method object name nameLine args line => do
      let v ← eval fuel fr env object
      match ← index fuel (some nameLine :: fr.callers) v (.text name) with
      | none => faultAt nameLine (typeMessage "index" v (describe? env fr.depth object))
      | some f =>
        let vs ← evalList fuel fr env args
        if f.isFunction then apply fuel (some line :: fr.callers) f (v :: vs)
        else faultAt line (typeMessage "call" f (some ("method", name)))
    | e => do return [← eval fuel fr env e]

def evalList (fuel : Nat) (fr : Frame) (env : Env) (es : List Expr) : Run (List Value) :=
  match fuel with
  | 0 => exhausted
  | fuel + 1 =>
    match es with
    | [] => return []
    | [e] => evalAll fuel fr env e
    | e :: rest => do
      let v ← eval fuel fr env e
      return v :: (← evalList fuel fr env rest)

def evalItems (fuel : Nat) (fr : Frame) (env : Env) (id : Nat) (items : List Item) : Run (List Value) :=
  match fuel with
  | 0 => exhausted
  | fuel + 1 =>
    match items with
    | [] => return []
    | [.positional e] => evalAll fuel fr env e
    | .positional e :: rest => do
      let v ← eval fuel fr env e
      return v :: (← evalItems fuel fr env id rest)
    | .keyed key value line :: rest => do
      let k ← eval fuel fr env key
      let v ← eval fuel fr env value
      checkKey line k
      changeTable id fun t => t.set k v
      evalItems fuel fr env id rest

/-- The value at a key, looked up through metatables; none if the object has no keys. -/
def index (fuel : Nat) (sites : Sites) (object key : Value) : Run (Option Value) :=
  match fuel with
  | 0 => exhausted
  | fuel + 1 =>
    match object with
    | .table id => do
      let t ← readTable id
      match t.get key, t.metatable with
      | .nil, some m =>
        match (← readTable m).get (.text "__index") with
        | .nil => return some .nil
        | handler =>
          if handler.isFunction then return some ((← apply fuel sites handler [object, key]).headD .nil)
          else index fuel sites handler key
      | v, _ => return some v
    | .string _ => do
      let strings ← readTable (← get).strings
      return some (strings.get key)
    | _ => return none

def apply (fuel : Nat) (sites : Sites) (f : Value) (args : List Value) : Run (List Value) :=
  match fuel with
  | 0 => exhausted
  | fuel + 1 =>
    match f with
    | .builtin b =>
      b.run
        { call := fun g vs => apply fuel (none :: sites) g vs
          index := fun v k => do
            match ← index fuel (none :: sites) v k with
            | some r => return r
            | none => raise (typeMessage "index" v none).toUTF8 }
        sites args
    | .closure id => do
      if maxCalls < sites.length then fault sites "stack overflow".toUTF8
      let c := (← get).closures.getD id default
      let params := c.function.params
      let env ← bindAll c.depth c.env params args
      let varargs := if c.function.variadic then args.drop params.length else []
      let body := c.function.body
      let (flow, _) ← execFrom fuel ⟨sites, c.depth, varargs⟩ env body body []
      match flow with
      | .ret values => return values
      | .tail f args => apply fuel sites f args
      | _ => return []
    | v => fault sites (typeMessage "call" v none).toUTF8

/-- Runs the rest of a block; `seen` holds the scopes of the labels that were passed. -/
def execFrom (fuel : Nat) (fr : Frame) (env : Env) (all rest : List Stat) (seen : List (String × Env)) :
    Run (Flow × Env) :=
  match fuel with
  | 0 => exhausted
  | fuel + 1 =>
    match rest with
    | [] => return (.next, env)
    | .label n :: rest => execFrom fuel fr env all rest ((n, env) :: seen)
    | s :: rest => do
      let (flow, env') ← exec fuel fr env s
      match flow with
      | .next => execFrom fuel fr env' all rest seen
      | .jump target =>
        match afterLabel? target all with
        | some rest =>
          let scope := ((seen.find? (·.1 = target)).map (·.2)).getD env'
          execFrom fuel fr scope all rest seen
        | none => return (flow, env)
      | _ => return (flow, env)

def exec (fuel : Nat) (fr : Frame) (env : Env) (s : Stat) : Run (Flow × Env) :=
  match fuel with
  | 0 => exhausted
  | fuel + 1 =>
    match s with
    | .assign targets values line => do
      let places ← evalPlaces fuel fr env targets
      let vs ← evalList fuel fr env values
      assignAll fuel fr env line (places.zip (adjust places.length vs)).reverse
      return (.next, env)
    | .declare names values => do
      let vs ← evalList fuel fr env values
      return (.next, ← bindAll fr.depth env names vs)
    | .declareFunction name f => do
      let cell ← newCell .nil
      let env := ⟨name, cell, fr.depth⟩ :: env
      writeCell cell (← newClosure ⟨f, env, fr.depth + 1⟩)
      return (.next, env)
    | .call e => do
      let _ ← evalAll fuel fr env e
      return (.next, env)
    | .block body => do
      let (flow, _) ← execFrom fuel fr env body body []
      return (flow, env)
    | .loop test body => do
      if (← eval fuel fr env test).truthy then
        let (flow, _) ← execFrom fuel fr env body body []
        match flow with
        | .next => exec fuel fr env (.loop test body)
        | .leave => return (.next, env)
        | flow => return (flow, env)
      else return (.next, env)
    | .repeatUntil body test => do
      let (flow, inner) ← execFrom fuel fr env body body []
      match flow with
      | .next =>
        if (← eval fuel fr inner test).truthy then return (.next, env)
        else exec fuel fr env (.repeatUntil body test)
      | .leave => return (.next, env)
      | flow => return (flow, env)
    | .branch test yes no => do
      let body := if (← eval fuel fr env test).truthy then yes else no
      let (flow, _) ← execFrom fuel fr env body body []
      return (flow, env)
    | .count name start limit step body line => do
      let start ← eval fuel fr env start
      let limit ← eval fuel fr env limit
      let step ← match step with
        | some e => eval fuel fr env e
        | none => pure (.int 1)
      match start.toNumber?, limit.toNumber?, step.toNumber? with
      | none, _, _ => faultAt line "'for' initial value must be a number"
      | _, none, _ => faultAt line "'for' limit must be a number"
      | _, _, none => faultAt line "'for' step must be a number"
      | some i, some last, some by_ => do
        let flow ← countLoop fuel fr env name i last by_ body
        return (flow, env)
    | .each names values body line => do
      let vs ← evalList fuel fr env values
      match adjust 3 vs with
      | f :: state :: control :: _ =>
        let flow ← eachLoop fuel fr env names f state control body line
        return (flow, env)
      | _ => return (.next, env)
    | .ret [.call callee args line] => do
      let f ← eval fuel fr env callee
      let vs ← evalList fuel fr env args
      match f with
      | .closure _ => return (.tail f vs, env)
      | .builtin _ => return (.ret (← apply fuel (some line :: fr.callers) f vs), env)
      | _ => faultAt line (typeMessage "call" f (describe? env fr.depth callee))
    | .ret values => do return (.ret (← evalList fuel fr env values), env)
    | .leave => return (.leave, env)
    | .jump target => return (.jump target, env)
    | .label _ => return (.next, env)

def countLoop (fuel : Nat) (fr : Frame) (env : Env) (name : String) (i last by_ : Double)
    (body : List Stat) : Run Flow :=
  match fuel with
  | 0 => exhausted
  | fuel + 1 => do
    let within := if Double.zero.lt by_ then i.le last else last.le i
    if within then
      let cell ← newCell (.number i)
      let (flow, _) ← execFrom fuel fr (⟨name, cell, fr.depth⟩ :: env) body body []
      match flow with
      | .next => countLoop fuel fr env name (i.add by_) last by_ body
      | .leave => return .next
      | flow => return flow
    else return .next

def eachLoop (fuel : Nat) (fr : Frame) (env : Env) (names : List String) (f state control : Value)
    (body : List Stat) (line : Nat) : Run Flow :=
  match fuel with
  | 0 => exhausted
  | fuel + 1 => do
    let results ← apply fuel (some line :: fr.callers) f [state, control]
    match results.headD .nil with
    | .nil => return .next
    | control =>
      let scope ← bindAll fr.depth env names results
      let (flow, _) ← execFrom fuel fr scope body body []
      match flow with
      | .next => eachLoop fuel fr env names f state control body line
      | .leave => return .next
      | flow => return flow

def evalPlaces (fuel : Nat) (fr : Frame) (env : Env) (targets : List Expr) : Run (List Place) :=
  match fuel with
  | 0 => exhausted
  | fuel + 1 =>
    match targets with
    | [] => return []
    | .index object key _ :: rest => do
      let v ← eval fuel fr env object
      let k ← eval fuel fr env key
      return Place.slot v k object :: (← evalPlaces fuel fr env rest)
    | .name n :: rest => do
      let place ← match lookup? env n with
        | some b => pure (Place.cell b.cell)
        | none => pure (Place.slot (.table (← get).globals) (.text n) (.name n))
      return place :: (← evalPlaces fuel fr env rest)
    | _ :: rest => evalPlaces fuel fr env rest

def assignAll (fuel : Nat) (fr : Frame) (env : Env) (line : Nat) (pairs : List (Place × Value)) :
    Run Unit :=
  match fuel with
  | 0 => exhausted
  | fuel + 1 =>
    match pairs with
    | [] => return ()
    | (.cell i, v) :: rest => do
      writeCell i v
      assignAll fuel fr env line rest
    | (.slot (.table id) key _, v) :: rest => do
      checkKey line key
      changeTable id fun t => t.set key v
      assignAll fuel fr env line rest
    | (.slot object _ target, _) :: _ =>
      faultAt line (typeMessage "index" object (describe? env fr.depth target))

end

end Eval

end Interleave.Script
