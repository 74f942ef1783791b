import ProtoSchema.Text.Quoted

/-! # How the command is used

The program has a subcommand for each task. Each of them has switches of its own, a usage line, a
help text, and a way of saying what is wrong with its arguments.
-/

namespace ProtoSchema.Command

def lines (ls : List String) : String :=
  String.join (ls.map (· ++ "\n"))

def version : String := "0.1.0"

def credits : String :=
  lines ["protoc-json " ++ version,
    "Converts Protocol Buffer (.proto) files to JSON without protoc.", "", "Built with:",
    "- Python", "- structlog (logging)", "- pytest (tests)"]

/-- The program itself or one of its subcommands. -/
inductive Program where
  /-- The program, up to the name of a subcommand. -/
  | main
  /-- Writes a schema as JSON. -/
  | parse
  /-- Checks a schema. -/
  | validate
  /-- Shows the credits. -/
  | credits
deriving DecidableEq

inductive Switch where
  /-- Shows the help text. -/
  | help
  /-- Shows entries that matter least. -/
  | verbose
  /-- Names the file to write. -/
  | output
  /-- Lays the document out in lines. -/
  | pretty
deriving DecidableEq

namespace Switch

/-- The letter of a switch, after one dash. -/
def short : Switch → Char
  | .help => 'h'
  | .verbose => 'v'
  | .output => 'o'
  | .pretty => 'p'

def long : Switch → String
  | .help => "help"
  | .verbose => "verbose"
  | .output => "output"
  | .pretty => "pretty"

/-- Whether a value belongs to the switch. -/
def takesValue : Switch → Bool
  | .output => true
  | _ => false

def name (s : Switch) : String :=
  "-" ++ String.singleton s.short ++ "/--" ++ s.long

end Switch

namespace Program

def subcommands : List Program :=
  [.parse, .validate, .credits]

/-- The word for a subcommand. -/
def word : Program → String
  | .main => ""
  | .parse => "parse"
  | .validate => "validate"
  | .credits => "credits"

def name : Program → String
  | .main => "protoc-json"
  | p => "protoc-json " ++ p.word

def switches : Program → List Switch
  | .main => [.help, .verbose]
  | .parse => [.help, .output, .pretty]
  | .validate | .credits => [.help]

def takesFile : Program → Bool
  | .parse | .validate => true
  | .main | .credits => false

def usage (p : Program) : String :=
  "usage: " ++ p.name ++
    match p with
    | .main => " [-h] [-v] \x7bparse,validate,credits\x7d ...\n"
    | .parse => " [-h] [-o OUTPUT] [-p] FILE\n"
    | .validate => " [-h] FILE\n"
    | .credits => " [-h]\n"

def details : Program → List String
  | .main =>
    ["", "Convert Protocol Buffer (.proto) files to JSON", "", "positional arguments:",
      "  \x7bparse,validate,credits\x7d",
      "    parse               Parse a .proto file and output JSON",
      "    validate            Check a .proto file without generating JSON",
      "    credits             Display version and credits information", "", "options:",
      "  -h, --help            show this help message and exit",
      "  -v, --verbose         Enable debug logging"]
  | .parse =>
    ["", "positional arguments:", "  FILE                  Input .proto file", "", "options:",
      "  -h, --help            show this help message and exit",
      "  -o OUTPUT, --output OUTPUT",
      "                        Output file (defaults to stdout)",
      "  -p, --pretty          Pretty print the JSON output"]
  | .validate =>
    ["", "positional arguments:", "  FILE        Input .proto file", "", "options:",
      "  -h, --help  show this help message and exit"]
  | .credits => ["", "options:", "  -h, --help  show this help message and exit"]

def help (p : Program) : String :=
  p.usage ++ lines p.details

end Program

/-- What is wrong with some arguments. -/
inductive Problem where
  /-- The named argument is missing. -/
  | required (name : String)
  /-- There is no such subcommand. -/
  | unknownCommand (word : String)
  /-- Nothing takes the arguments. -/
  | unrecognized (arguments : List String)
  /-- The beginning of a switch fits several. -/
  | ambiguous (argument : String) (candidates : List Switch)
  /-- A switch lacks its value. -/
  | missingValue (s : Switch)
  /-- A switch that takes no value has one. -/
  | unexpectedValue (s : Switch) (value : String)
deriving DecidableEq

namespace Problem

def message : Problem → String
  | .required name => "the following arguments are required: " ++ name
  | .unknownCommand word =>
    "argument command: invalid choice: " ++ Text.Quoted.encode word ++ " (choose from " ++
      ", ".intercalate (Program.subcommands.map fun p => Text.Quoted.encode p.word) ++ ")"
  | .unrecognized arguments => "unrecognized arguments: " ++ " ".intercalate arguments
  | .ambiguous argument candidates =>
    "ambiguous option: " ++ argument ++ " could match " ++
      ", ".intercalate (candidates.map fun s => "--" ++ s.long)
  | .missingValue s => "argument " ++ s.name ++ ": expected one argument"
  | .unexpectedValue s value =>
    "argument " ++ s.name ++ ": ignored explicit argument " ++ Text.Quoted.encode value

end Problem

/-- Why nothing is run. -/
inductive Stop where
  /-- The help text was asked for. -/
  | help (p : Program)
  /-- The arguments are wrong. -/
  | misuse (p : Program) (problem : Problem)
deriving DecidableEq

namespace Stop

def code : Stop → Nat
  | .help _ => 0
  | .misuse _ _ => 2

def stdout : Stop → String
  | .help p => p.help
  | .misuse _ _ => ""

def stderr : Stop → String
  | .help _ => ""
  | .misuse p problem => p.usage ++ p.name ++ ": error: " ++ problem.message ++ "\n"

end Stop

end ProtoSchema.Command
