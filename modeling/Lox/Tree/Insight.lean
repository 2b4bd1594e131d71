import Lox.Tree
/-!
# Insights

An overview of the classes and functions that a program declares. A walk over the statements
enters and leaves each one and counts how many functions it is in. Methods belong to their
class, so the walk does not go into class bodies.
-/

namespace Lox

/-- A moment of the walk. -/
inductive Visit where
  | enter (s : Stmt)
  | leave (s : Stmt)

mutual

/-- The walk over a statement. -/
def Stmt.visits : Stmt → List Visit
  | .block brace body =>
    .enter (.block brace body) :: (Stmt.listVisits body ++ [.leave (.block brace body)])
  | .ifElse keyword cond yes none =>
    .enter (.ifElse keyword cond yes none) ::
      (yes.visits ++ [.leave (.ifElse keyword cond yes none)])
  | .ifElse keyword cond yes (some no) =>
    .enter (.ifElse keyword cond yes (some no)) ::
      (yes.visits ++ (no.visits ++ [.leave (.ifElse keyword cond yes (some no))]))
  | .loop keyword cond body =>
    .enter (.loop keyword cond body) :: (body.visits ++ [.leave (.loop keyword cond body)])
  | .funDecl (.mk name params body) =>
    .enter (.funDecl (.mk name params body)) ::
      (Stmt.listVisits body ++ [.leave (.funDecl (.mk name params body))])
  | s => [.enter s, .leave s]

def Stmt.listVisits : List Stmt → List Visit
  | [] => []
  | s :: rest => s.visits ++ Stmt.listVisits rest

end

/-- What is told about a function. -/
structure FunctionInfo where
  name : Bytes
  params : List Bytes
  line : Nat
  /-- The number of functions around it. -/
  depth : Int

/-- What is told about a class. -/
structure ClassInfo where
  name : Bytes
  superclass : Option Bytes
  line : Nat
  methods : List FunctionInfo

def FunDecl.describe (f : FunDecl) (depth : Int) : FunctionInfo :=
  ⟨f.name.lexeme, f.params.map Token.lexeme, f.name.line, depth⟩

/-- What the walk has found, and how many functions it is in. -/
structure Insights where
  classes : List ClassInfo
  functions : List FunctionInfo
  depth : Int

namespace Insights

def visit (i : Insights) : Visit → Insights
  | .enter (.classDecl _ name superclass methods) =>
    { i with classes := i.classes ++ [
        ⟨name.lexeme, superclass.map (·.name.lexeme), name.line,
          methods.map (FunDecl.describe · i.depth)⟩] }
  | .enter (.funDecl f) =>
    { i with functions := i.functions ++ [f.describe i.depth], depth := i.depth + 1 }
  | .leave (.funDecl _) => { i with depth := i.depth - 1 }
  | _ => i

def ofProgram (program : List Stmt) : Insights :=
  (Stmt.listVisits program).foldl visit ⟨[], [], 0⟩

def parameterList (f : FunctionInfo) : Bytes :=
  f.name ++ utf8 "(" ++ Bytes.join (utf8 ", ") f.params ++ utf8 ")"

def line (n : Nat) : Bytes := utf8 " (line " ++ Bytes.ofNat n ++ utf8 ")\n"

def methodText (m : FunctionInfo) : Bytes :=
  utf8 "      " ++ utf8 (if m.name = utf8 "init" then "init" else "method") ++ utf8 " " ++
    parameterList m ++ utf8 "\n"

def classText (c : ClassInfo) : Bytes :=
  utf8 "  · class " ++ c.name ++
    (match c.superclass with
      | some name => utf8 " < " ++ name
      | none => []) ++
    line c.line ++ c.methods.flatMap methodText

def functionText (f : FunctionInfo) : Bytes :=
  utf8 "  · " ++ (List.replicate f.depth.toNat (utf8 "  ")).flatten ++
    utf8 (if 0 < f.depth then "closure" else "fun") ++ utf8 " " ++ parameterList f ++ line f.line

/-- A heading with the number of entries, then the entries. -/
def listing {α : Type} (title one : String) (entries : List α) (text : α → Bytes) : Bytes :=
  utf8 title ++ utf8 " (" ++ Bytes.ofNat entries.length ++ utf8 ")\n" ++
    (if entries.isEmpty then utf8 "  · No " ++ utf8 one ++ utf8 " declarations found.\n"
      else entries.flatMap text)

/-- The overview as text. -/
def toBytes (i : Insights) : Bytes :=
  listing "Classes" "class" i.classes classText ++
    listing "Functions" "function" i.functions functionText

end Insights

end Lox
