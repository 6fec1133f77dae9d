import FlatLisp.Session

/-! The responses of the console, and the lines that they are written as. -/
namespace FlatLisp

/-- What the console does on a line. -/
inductive Response
  | ignored
  | help
  | listing (functions : List (UserFunction (List Token))) (bindings : List (String × Value))
  | cleared
  | goodbye
  | collecting
  | executed (source : String) (execution : Execution)

namespace Response

def welcome : List String :=
  ["MiniLisp Interpreter",
    "Enter expressions like: (print (+ 1 2))",
    "Type :help for more commands, or Ctrl+C to exit.",
    ""]

def helpText : List String :=
  ["MiniLisp Interpreter:",
    "  :help      - Show this help message",
    "  :env       - Show current variables and functions",
    "  :reset     - Discard all variables and functions",
    "  :quit      - Exit the interpreter",
    "  :exit      - Exit the interpreter",
    "  Ctrl+C     - Exit the interpreter (or discard unfinished input)",
    "",
    "Built-in operators: " ++ " ".intercalate (Builtin.all.map Builtin.symbol),
    "",
    "Language:",
    "  Numbers: 42, -5            Text: any other word, e.g. hello",
    "  Arithmetic: + - * / ^ %    Comparison: > < = >= <=",
    "  Variables: (setq x 5)      Output: (print x)",
    "  Conditionals: (if cond then else)",
    "  Loops: (while cond body...), (for init cond body update)",
    "  Functions: (defun name (params...) body...)",
    "  Comments: ; to end of line",
    "",
    "Examples:",
    "  (print (+ 1 2 3))",
    "  (defun sq (x) (* x x)) (print (sq 4))",
    "  (setq i 0) (while (< i 3) (print i) (setq i (+ i 1)))",
    ""]

def signature (f : UserFunction (List Token)) : String :=
  let parameters := " ".intercalate f.parameters
  s!"({f.name} {parameters})"

def functionLines (functions : List (UserFunction (List Token))) : List String :=
  if functions.isEmpty then []
  else
    s!"Functions ({functions.length}):" ::
      functions.map (fun f => "  " ++ signature f) ++ [""]

def variableLines (bindings : List (String × Value)) : List String :=
  if bindings.isEmpty then []
  else
    s!"Variables ({bindings.length}):" ::
      bindings.map fun (name, v) => s!"  {name} = {v.display}"

/-- The value of an execution, which is shown only if nothing was printed. -/
def echo (x : Execution) : List String :=
  match x.outcome with
  | .ok v => if x.output.isEmpty then [s!"=> {v.display}"] else []
  | .error _ => []

def lines : Response → List String
  | ignored | collecting => []
  | help => helpText
  | listing functions bindings =>
    if functions.isEmpty && bindings.isEmpty then ["Environment is empty."]
    else functionLines functions ++ variableLines bindings
  | cleared => ["Environment cleared."]
  | goodbye => ["Goodbye!"]
  | executed _ x => x.lines ++ echo x

end Response

/-- Lines as they are written, each of them with a line break. -/
def writeLines (lines : List String) : String := String.join (lines.map (· ++ "\n"))

end FlatLisp
