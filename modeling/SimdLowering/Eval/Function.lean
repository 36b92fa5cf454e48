/-
Running a function.

A run binds the arguments, evaluates the operations of the entry block one
after the other, and ends at the first return. What has been computed is kept
in an environment that outlives the run, so that a later run can read values
of an earlier one.
-/
import SimdLowering.Eval.Frame

set_option autoImplicit false

namespace SimdLowering

/-- The values computed so far. -/
structure Env where
  get? : ValueId → Option RtValue

namespace Env

/-- Nothing computed. -/
def empty : Env := ⟨fun _ => none⟩

/-- The environment in which `v` is bound to `x`. -/
def bind (env : Env) (v : ValueId) (x : RtValue) : Env :=
  ⟨fun w => if w = v then some x else env.get? w⟩

/-- Binding a value changes what is read there, and nothing else. -/
theorem get?_bind (env : Env) (v w : ValueId) (x : RtValue) :
    (env.bind v x).get? w = if w = v then some x else env.get? w := rfl

/-- Bind values in pairs. -/
def bindAll (env : Env) (pairs : List (ValueId × RtValue)) : Env :=
  pairs.foldl (fun env p => env.bind p.1 p.2) env

/-- The value computed for `v`. -/
def read (env : Env) (v : ValueId) : Except EvalError RtValue :=
  match env.get? v with
  | some x => .ok x
  | none => .error (.unbound v)

end Env

namespace Graph

/-- The frame of an operation in an environment. -/
def frame (g : Graph) (env : Env) (op : OpId) : Frame :=
  ⟨op, g.kind op, g.attrs op,
    (g.operands op).map fun v => ⟨v, (g.value? v).map Value.ty, env.get? v⟩,
    (g.resultTypes op).head?⟩

/-- The value of an operation in an environment. -/
def evalOp (g : Graph) (env : Env) (op : OpId) : Except EvalError RtValue := (g.frame env op).eval

/-- Evaluate operations in order, up to the first return. Without a return
nothing is returned. -/
def runOps (g : Graph) : List OpId → Env → Env × Except EvalError (List RtValue)
  | [], env => (env, .ok [])
  | op :: ops, env =>
    if g.kind op = .ret then (env, (g.operands op).mapM env.read)
    else
      match g.evalOp env op with
      | .error e => (env, .error e)
      | .ok x =>
        match g.results op with
        | [] => (env, .error .broken)
        | v :: _ => g.runOps ops (env.bind v x)

/-- Run a function on arguments, in an environment. -/
def runIn (g : Graph) (env : Env) (func : OpId) (args : List RtValue) :
    Env × Except EvalError (List RtValue) :=
  match g.entryBlock? func with
  | none => (env, .error (.malformed func .notAFunction))
  | some entry =>
    let params := g.argsOf entry
    if params.length ≠ args.length then
      (env, .error (.argumentCount params.length args.length))
    else g.runOps (g.opsIn entry) (env.bindAll (params.zip args))

/-- Run a function on arguments and give what it returns. -/
def run (g : Graph) (func : OpId) (args : List RtValue) : Except EvalError (List RtValue) :=
  (g.runIn .empty func args).2

end Graph

end SimdLowering
