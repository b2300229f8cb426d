/-!
# Help and usage text

The texts the command line prints about itself. Each names the program as it was started.

- The usage line, printed before every error on the command line.
- The help, printed by `-h`: the usage line, then the positional argument and every option
  with its help and its default.
- The version line, printed by `-v`.
-/

namespace AsmTidy.Cli

/-- The usage line of the program `prog`. -/
def usage (prog : String) : String :=
  "usage: " ++ prog ++ " [-h] [-o outfile | -m | -r] [-p PATTERN] [-l] [-v] infile\n"

/-- The description of the arguments, as the help prints it after the usage line. -/
def argumentHelp : List String := [
  "",
  "positional arguments:",
  "  infile                Input file, pass \"-\" to read from for stdin",
  "",
  "options:",
  "  -h, --help            show this help message and exit",
  "  -o outfile, --outfile outfile",
  "                        Output file, defaults to \"-\" for stdout (default: -)",
  "  -m, --modify-in-place",
  "                        Use input file as output target (default: False)",
  "  -r, --recursive       Recursively fix all files (default: False)",
  "  -p PATTERN, --pattern PATTERN",
  "                        Match file names by Unix shell-style wildcard when",
  "                        used with -r (default: *.s)",
  "  -l, --colonless-labels",
  "                        Allow labels without a colon (this option breaks",
  "                        macros, use with legacy code only) (default: False)",
  "  -v, --version         Show version (default: None)"]

/-- The help of the program `prog`. -/
def helpText (prog : String) : String :=
  usage prog ++ String.join (argumentHelp.map (· ++ "\n"))

/-- The version line. -/
def versionLine : String := "nice65 version 0.1.7\n"

/-- What the program `prog` prints when its command line is wrong. -/
def usageErrorText (prog message : String) : String :=
  usage prog ++ prog ++ ": error: " ++ message ++ "\n"

end AsmTidy.Cli
