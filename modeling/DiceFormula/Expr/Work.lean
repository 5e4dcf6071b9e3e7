import DiceFormula.Expr.Basic
import DiceFormula.Fault
import DiceFormula.Word

/-!
# Work

The work of an expression is the number of dice that an evaluation throws plus the number of
constants that it meets. It is counted in words; a count that does not fit is over every limit.
-/

namespace DiceFormula.Expr

mutual

/-- The work of an expression, if it can be counted in words. -/
def work : Expr → Option Int
  | constant _ => some 1
  | dice pool => some pool.count
  | selected _ _ pool => some pool.count
  | binary _ left right => left.work.bind fun a => right.work.bind fun b => Word.add a b
  | repeated count body => body.work.bind fun w => Word.mul count w
  | sequence items => workOfAll items

def workOfAll : List Expr → Option Int
  | [] => some 0
  | item :: rest => item.work.bind fun a => (workOfAll rest).bind fun b => Word.add a b

end

/-- So many evaluations of an expression come to more than the limit. The limit is divided instead
of multiplying the work. -/
def isTooMuchWork (repetitions : Int) (body : Expr) : Bool :=
  match body.work with
  | none => true
  | some work => decide (maxWork.tdiv repetitions < work)

end DiceFormula.Expr
