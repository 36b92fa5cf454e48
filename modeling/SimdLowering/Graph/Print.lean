/-
The printed form of an operation and what is nested in it.

Values are numbered in the order the text defines them, parameters first, so
that the text does not depend on how the arenas were filled. A value that the
text has not defined by the time it is read is shown as unknown. Every
operation is one line: results, full name, operands, attributes and result
types, each part left out when it is empty. Functions show their parameters in
place of all that.
-/
import SimdLowering.Instr.View
import SimdLowering.Number.Shortest
import SimdLowering.Text.Quoted

set_option autoImplicit false

namespace SimdLowering

namespace Attribute

mutual

/-- The text of an attribute. -/
def render : Attribute → String
  | unit => "unit"
  | bool b => if b then "true" else "false"
  | int v => toString v
  | float x => floatText x
  | str s => quoted s
  | type ty => ty.render
  | list items => "[" ++ renderItems items ++ "]"
  | intPredicate p => p.mnemonic
  | floatPredicate p => p.mnemonic
  | combining k => "<" ++ k.mnemonic ++ ">"
  | map m => "affine_map<" ++ m.render ++ ">"

/-- The texts of attributes, with commas between them. -/
def renderItems : List Attribute → String
  | [] => ""
  | [a] => a.render
  | a :: rest => a.render ++ ", " ++ renderItems rest

end

end Attribute

/-- The text so far and the numbers it has given to values, latest first. -/
structure Printout where
  text : String
  next : Nat
  numbers : List (ValueId × Nat)
  deriving Repr, Inhabited

namespace Printout

/-- Nothing printed and nothing numbered. -/
def empty : Printout := ⟨"", 0, []⟩

/-- Add text at the end. -/
def put (p : Printout) (s : String) : Printout := { p with text := p.text ++ s }

/-- Give the next number to a value. -/
def define (p : Printout) (v : ValueId) : Printout :=
  { p with next := p.next + 1, numbers := (v, p.next) :: p.numbers }

/-- The name of a value in the text. -/
def nameOf (p : Printout) (v : ValueId) : String :=
  match p.numbers.lookup v with
  | some n => "%" ++ toString n
  | none => "%?"

end Printout

namespace Graph

/-- Leading blanks. -/
def blanks (n : Nat) : String := String.ofList (List.replicate n ' ')

/-- The line of an operation up to its regions, without the line's end. -/
def printHead (g : Graph) (indent : Nat) (op : OpId) (p : Printout) : Printout :=
  let p := (g.results op).foldl Printout.define p
  let results := ", ".intercalate ((g.results op).map p.nameOf)
  let operands := ", ".intercalate ((g.operands op).map p.nameOf)
  let attrs := ", ".intercalate
    ((g.attrs op).entries.map fun e => e.1 ++ " = " ++ e.2.render)
  let types := ", ".intercalate ((g.resultTypes op).map Ty.render)
  p.put <| blanks indent ++ (if (g.results op).isEmpty then "" else results ++ " = ") ++
    (g.kind op).text ++ (if (g.operands op).isEmpty then "" else " " ++ operands) ++
    (if (g.attrs op).entries.isEmpty then "" else " \x7b" ++ attrs ++ "\x7d") ++
    (if (g.resultTypes op).isEmpty then "" else " : " ++ types)

/-- The line of a function up to the opening brace. -/
def printFuncHead (g : Graph) (indent : Nat) (op : OpId) (p : Printout) : Printout :=
  let params := ((g.entryBlock? op).map g.argsOf).getD []
  let p := params.foldl Printout.define p
  let text := ", ".intercalate
    (List.zipWith (fun v ty => p.nameOf v ++ ": " ++ ty.render) params (g.typesOf params))
  p.put <| blanks indent ++ "func.func @" ++ (g.funcName? op).getD "?" ++ "(" ++ text ++ ") \x7b\n"

/-- Print an operation, at most `depth` levels down. -/
def printWithin (g : Graph) : Nat → Nat → OpId → Printout → Printout
  | 0, _, _, p => p
  | depth + 1, indent, op, p =>
    let inside := fun p r =>
      (g.opsOfRegion r).foldl (fun p op => g.printWithin depth (indent + 2) op p) p
    if g.kind op = .func then
      ((g.regionsOf op).foldl inside (g.printFuncHead indent op p)).put (blanks indent ++ "\x7d\n")
    else
      ((g.regionsOf op).foldl
        (fun p r => (inside (p.put " \x7b\n") r).put (blanks indent ++ "\x7d"))
        (g.printHead indent op p)).put "\n"

/-- The printed form of an operation. -/
def print (g : Graph) (op : OpId) : String := (g.printWithin g.depthBound 0 op .empty).text

end Graph

end SimdLowering
