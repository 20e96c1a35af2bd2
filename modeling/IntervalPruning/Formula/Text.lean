import IntervalPruning.Formula.Basic

/-!
# IntervalPruning.Formula.Text

How terms and formulas are written. An operand that is itself an operation is put in
parentheses, so no rule of precedence is needed to read a term; a connective stands in
parentheses with its sign between the arguments.

The name of a variable is a parameter: by number (`Var.text`), or as a table has it.
-/

namespace IntervalPruning

namespace Term

/-- The text of a term as it stands beside an operator. -/
def enclose : Term → String → String
  | var _, s => s
  | const _, s => s
  | _, s => "(" ++ s ++ ")"

def text (name : Var → String) : Term → String
  | var v => name v
  | const n => toString n
  | neg t => "-" ++ t.enclose (t.text name)
  | bin op s t => s.enclose (s.text name) ++ " " ++ op.symbol ++ " " ++ t.enclose (t.text name)

def operandText (name : Var → String) (t : Term) : String := t.enclose (t.text name)

end Term

def Connective.sign : Connective → String
  | and => " & "
  | or => " | "

namespace Formula

mutual
def text (name : Var → String) : Formula → String
  | const b => if b then "true" else "false"
  | cmp r s t => s.operandText name ++ " " ++ r.text ++ " " ++ t.operandText name
  | not f => "!(" ++ f.text name ++ ")"
  | conn c args => "(" ++ c.sign.intercalate (textArgs name args) ++ ")"

def textArgs (name : Var → String) : List Formula → List String
  | [] => []
  | f :: fs => f.text name :: textArgs name fs
end

theorem textArgs_eq_map (name : Var → String) (fs : List Formula) :
    textArgs name fs = fs.map (text name) := by
  induction fs with
  | nil => rfl
  | cons f fs ih => simp [textArgs, ih]

end Formula

end IntervalPruning
