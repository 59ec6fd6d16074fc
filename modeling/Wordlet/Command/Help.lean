/-!
# Usage lines and help texts

The first line of a help text is the usage line, which also heads every complaint about a command
line. A help text ends with a newline.
-/

namespace Wordlet.Command.Help

/-- A text of the given lines, each ended by a newline. -/
def ofLines (lines : List String) : String := String.join (lines.map (· ++ "\n"))

/-- The usage line of the program. -/
def mainUsage : String :=
  "usage: idem [-h] [--verbose] \x7brun,format,validate,display,natives\x7d ..."

/-- The help text of the program. -/
def mainHelp : String :=
  ofLines
    [mainUsage,
      "",
      "Idem language toolchain",
      "",
      "positional arguments:",
      "  \x7brun,format,validate,display,natives\x7d",
      "                        Command to run",
      "    run                 Run an Idem program",
      "    format              Format an Idem program in place",
      "    validate            Check an Idem program",
      "    display             Display visualizations for a program",
      "    natives             List native functions",
      "",
      "options:",
      "  -h, --help            show this help message and exit",
      "  --verbose, -v         Enable debug logging",
      "",
      "Examples:",
      "  idem run examples/hello.id",
      "  idem validate examples/hello.id",
      "  idem format examples/hello.id --check",
      "  idem display functions examples/hello.id -o calls.dot"]

/-- The usage line of `run`. -/
def runUsage : String :=
  "usage: idem run [-h] [--trace] [--no-validate] [--max-depth MAX_DEPTH] path"

/-- The help text of `run`. -/
def runHelp : String :=
  ofLines
    [runUsage,
      "",
      "positional arguments:",
      "  path                  Path to an Idem source file",
      "",
      "options:",
      "  -h, --help            show this help message and exit",
      "  --trace               Log every function call",
      "  --no-validate         Run even if validation reports issues",
      "  --max-depth MAX_DEPTH",
      "                        Maximum nested calls (default: no limit)"]

/-- The usage line of `format`. -/
def formatUsage : String :=
  "usage: idem format [-h] [--check] path"

/-- The help text of `format`. -/
def formatHelp : String :=
  ofLines
    [formatUsage,
      "",
      "positional arguments:",
      "  path        Path to an Idem source file",
      "",
      "options:",
      "  -h, --help  show this help message and exit",
      "  --check     Only report whether the file would change"]

/-- The usage line of `validate`. -/
def validateUsage : String :=
  "usage: idem validate [-h] path"

/-- The help text of `validate`. -/
def validateHelp : String :=
  ofLines
    [validateUsage,
      "",
      "positional arguments:",
      "  path        Path to an Idem source file",
      "",
      "options:",
      "  -h, --help  show this help message and exit"]

/-- The usage line of `display`. -/
def displayUsage : String :=
  "usage: idem display [-h] \x7bfunctions\x7d ..."

/-- The help text of `display`. -/
def displayHelp : String :=
  ofLines
    [displayUsage,
      "",
      "positional arguments:",
      "  \x7bfunctions\x7d  Visualization",
      "    functions  Function call graph (Graphviz)",
      "",
      "options:",
      "  -h, --help   show this help message and exit"]

/-- The usage line of `display functions`. -/
def displayFunctionsUsage : String :=
  "usage: idem display functions [-h] [--output OUTPUT] path"

/-- The help text of `display functions`. -/
def displayFunctionsHelp : String :=
  ofLines
    [displayFunctionsUsage,
      "",
      "positional arguments:",
      "  path                  Path to an Idem source file",
      "",
      "options:",
      "  -h, --help            show this help message and exit",
      "  --output OUTPUT, -o OUTPUT",
      "                        File to save the graph to (default: stdout)"]

/-- The usage line of `natives`. -/
def nativesUsage : String :=
  "usage: idem natives [-h]"

/-- The help text of `natives`. -/
def nativesHelp : String :=
  ofLines
    [nativesUsage,
      "",
      "options:",
      "  -h, --help  show this help message and exit"]

end Wordlet.Command.Help
