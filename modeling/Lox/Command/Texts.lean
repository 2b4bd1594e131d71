import Lox.Text.Bytes
/-!
# Texts of the command line
-/

namespace Lox.Command

def version : String := "0.1.0"

def versionText : Bytes :=
  utf8 ("Lox " ++ version ++ "\nBuild Date: unknown\nGit Commit: unknown\n")

def lines (all : List String) : Bytes := utf8 (String.join (all.map (· ++ "\n")))

/-- What is shown if there are no arguments. -/
def shortHelp : Bytes := lines [
  "Lox v" ++ version,
  "",
  "Usage:",
  "  lox <file.lox>           Run a Lox script",
  "  lox repl                 Start interactive REPL",
  "  lox run <file>           Run a Lox script (explicit)",
  "  lox eval '<code>'        Evaluate Lox source",
  "  lox version              Show version information",
  "  lox help                 Show this help message",
  "",
  "Flags:",
  "  -v, --version            Show version information",
  "  -h, --help               Show this help message"]

def help : Bytes := lines [
  "Lox: a tree-walking interpreter",
  "",
  "Usage:",
  "  lox <file.lox>                 Run a Lox script (shortcut for 'lox run')",
  "  lox run [-mail-to addr] <file> Execute a script, optionally mailing a transcript",
  "  lox repl                       Start the interactive REPL",
  "  lox eval '<code>'              Run source given on the command line",
  "  lox tokens <file>              Print the token stream",
  "  lox ast <file>                 Print the program AST",
  "  lox inspect <file>             Summarize classes and functions",
  "  lox serve [-addr host:port]    Serve REPL sessions over WebSocket",
  "  lox hash <password>            Print a bcrypt hash for LOX_PASSWORD_HASH",
  "  lox version                    Display build metadata",
  "  lox help                       Show this help message",
  "",
  "Global flags:",
  "  --help, -h                     Show help",
  "  --version, -v                  Show version",
  "",
  "Exit codes: 64 usage, 65 syntax or resolution error, 70 runtime error."]

end Lox.Command
