import ProtoSchema.Command.Usage
import ProtoSchema.Text.Digit

/-! # Reading arguments

Arguments are first told apart one by one: a switch, a plain text, or two dashes, after which all
is plain. The program takes its own switches up to the name of a subcommand, and the subcommand
takes the rest.

Values of switches are told as in the releases of the argument library up to 3.11.9. Later ones take
the two dashes of `-o--` for a value, and leave the equals sign of `-po=` out of it.
-/

namespace ProtoSchema.Command

/-- A switch that an argument names by its letter or its word, with the text behind it in the same
argument. -/
structure Hit where
  switch : Switch
  isLong : Bool
  attached : Option (List Char)
deriving DecidableEq

/-- An argument, told apart. -/
inductive Item where
  /-- Two dashes, the first of their kind. -/
  | separator
  /-- A text. -/
  | plain (text : String)
  /-- A switch. -/
  | switch (text : String) (hit : Hit)
  /-- An argument with a dash in front that no switch fits. -/
  | unknown (text : String)
deriving DecidableEq

namespace Item

def text : Item → String
  | .separator => "--"
  | .plain text => text
  | .switch text _ => text
  | .unknown text => text

end Item

/-- The text before the first equals sign, and the text after it. -/
def splitEquals : List Char → Option (List Char × List Char)
  | [] => none
  | '=' :: cs => some ([], cs)
  | c :: cs => (splitEquals cs).map fun (before, after) => (c :: before, after)

/-- The beginning of a word after two dashes, and the value that is joined to it. -/
def splitValue (cs : List Char) : List Char × Option (List Char) :=
  match splitEquals cs with
  | some (name, value) => (name, some value)
  | none => (cs, none)

/-- The switch that is named in full, and whether by its word. -/
def Program.named? (p : Program) (name : List Char) : Option (Switch × Bool) :=
  let byLetter := p.switches.find? fun s => name == ['-', s.short]
  let byWord := p.switches.find? fun s => name == '-' :: '-' :: s.long.toList
  (byLetter.map (·, false)).or (byWord.map (·, true))

/-- The switches that an argument may name by the beginning of their word, or by their letter with
more text behind it. -/
def Program.candidates (p : Program) : List Char → List Hit
  | '-' :: '-' :: cs =>
    let (name, attached) := splitValue cs
    (p.switches.filter fun s => name.isPrefixOf s.long.toList).map (Hit.mk · true attached)
  | '-' :: c :: cs => (p.switches.filter (·.short == c)).map (Hit.mk · false (some cs))
  | _ => []

/-- Whether a text is made of digits, with or without a fraction, and perhaps a last line feed. -/
def isNumeral (cs : List Char) : Bool :=
  let isDigit := fun c => (Text.digitValue? c).isSome
  let cs := if cs.getLast? = some '\n' then cs.dropLast else cs
  match cs.dropWhile isDigit with
  | [] => !cs.isEmpty
  | '.' :: fraction => !fraction.isEmpty && fraction.all isDigit
  | _ => false

/-- An argument that is not named in full: a switch if exactly one fits it. A negative number and
a text with a space in it are plain. -/
def Program.guess (p : Program) (text : String) : Except Problem Item :=
  match p.candidates text.toList with
  | [] =>
    if isNumeral text.toList.tail || text.toList.contains ' ' then .ok (.plain text)
    else .ok (.unknown text)
  | [hit] => .ok (.switch text hit)
  | hits => .error (.ambiguous text (hits.map (·.switch)))

/-- Tells an argument apart. One that starts with no dash, or is nothing else, is plain. -/
def Program.classify (p : Program) (text : String) : Except Problem Item :=
  match text.toList with
  | '-' :: _ :: _ =>
    match p.named? text.toList with
    | some (s, isLong) => .ok (.switch text ⟨s, isLong, none⟩)
    | none =>
      match splitEquals text.toList with
      | none => p.guess text
      | some (name, value) =>
        match p.named? name with
        | some (s, isLong) => .ok (.switch text ⟨s, isLong, some value⟩)
        | none => p.guess text
  | _ => .ok (.plain text)

def Program.items (p : Program) : List String → Except Problem (List Item)
  | [] => .ok []
  | text :: rest =>
    if text = "--" then .ok (.separator :: rest.map .plain)
    else
      match p.classify text with
      | .error problem => .error problem
      | .ok item => (p.items rest).map (item :: ·)

/-- A switch that was given, with its value. A switch that takes no value has none, and neither has
one that was given two dashes in place of it. -/
structure Setting where
  switch : Switch
  value : Option String
deriving DecidableEq

namespace Setting

def plain (s : Switch) : Setting :=
  ⟨s, none⟩

/-- A switch with its value in the same argument. Two dashes are no value. -/
def joined (s : Switch) (value : List Char) : Setting :=
  ⟨s, if value = ['-', '-'] then none else some (String.ofList value)⟩

end Setting

/-- What one argument says about switches: those that are complete, and one that waits for the
next argument. -/
structure Cluster where
  settings : List Setting
  waiting : Option Switch

namespace Cluster

def single (setting : Setting) : Cluster :=
  ⟨[setting], none⟩

def alone (s : Switch) : Cluster :=
  if s.takesValue then ⟨[], some s⟩ else single (.plain s)

def cons (s : Switch) (c : Cluster) : Cluster :=
  { c with settings := .plain s :: c.settings }

def ofValue (s : Switch) (value : List Char) : Except Problem Cluster :=
  if s.takesValue then .ok (single (.joined s value))
  else .error (.unexpectedValue s (String.ofList value))

/-- The cluster of a switch's letter with text behind it: more letters, if the switch takes no
value and the text starts with the letter of another one, and a value otherwise. -/
def ofLetter (p : Program) (s : Switch) : List Char → Except Problem Cluster
  | [] => ofValue s []
  | c :: cs =>
    match if s.takesValue then none else p.switches.find? (·.short == c), cs with
    | none, _ => ofValue s (c :: cs)
    | some next, [] => .ok (cons s (alone next))
    | some next, more => (ofLetter p next more).map (cons s)

def ofHit (p : Program) (hit : Hit) : Except Problem Cluster :=
  match hit.attached with
  | none => .ok (alone hit.switch)
  | some text => if hit.isLong then ofValue hit.switch text else ofLetter p hit.switch text

/-- The settings of a cluster, where the item after it may be the value of its last switch, and
whether that item was used. -/
def complete (c : Cluster) (next : Option Item) : Except Problem (List Setting × Bool) :=
  match c.waiting, next with
  | none, _ => .ok (c.settings, false)
  | some s, some (.plain value) => .ok (c.settings ++ [⟨s, some value⟩], true)
  | some s, _ => .error (.missingValue s)

end Cluster

/-- What a program's arguments say: its switches with their values, a file, and what nothing
takes. -/
structure Reading where
  settings : List Setting
  file : Option String
  extras : List String

namespace Reading

def empty : Reading :=
  ⟨[], none, []⟩

/-- A reading with an argument that nothing takes. -/
def leave (r : Reading) (text : String) : Reading :=
  { r with extras := r.extras ++ [text] }

def set (r : Reading) (p : Program) (settings : List Setting) : Except Stop Reading :=
  if settings.any (·.switch == .help) then .error (.help p)
  else .ok { r with settings := r.settings ++ settings }

/-- A reading with the switch of one more argument, which `next` follows; the result says whether
`next` was used. -/
def take (r : Reading) (p : Program) (hit : Hit) (next : Option Item) :
    Except Stop (Reading × Bool) :=
  match Cluster.ofHit p hit with
  | .error problem => .error (.misuse p problem)
  | .ok c =>
    match c.complete next with
    | .error problem => .error (.misuse p problem)
    | .ok (settings, used) => (r.set p settings).map (·, used)

/-- Whether the program still lacks its file. -/
def lacksFile (r : Reading) (p : Program) : Bool :=
  p.takesFile && r.file.isNone

def run (p : Program) (r : Reading) : List Item → Except Stop Reading
  | [] => .ok r
  | .unknown text :: rest => run p (r.leave text) rest
  | .switch _ hit :: rest =>
    match r.take p hit rest.head? with
    | .error stop => .error stop
    | .ok (r, used) =>
      match used, rest with
      | true, _ :: rest => run p r rest
      | _, rest => run p r rest
  | .plain text :: rest =>
    if r.lacksFile p then
      match rest with
      | .separator :: rest => run p { r with file := some text } rest
      | rest => run p { r with file := some text } rest
    else run p (r.leave text) rest
  | .separator :: rest =>
    match r.lacksFile p, rest with
    | true, .plain text :: rest => run p { r with file := some text } rest
    | _, rest => run p (r.leave "--") rest

def setting? (r : Reading) (s : Switch) : Option Setting :=
  r.settings.reverse.find? (·.switch == s)

def has (r : Reading) (s : Switch) : Bool :=
  (r.setting? s).isSome

end Reading

/-- Where a document goes. -/
inductive Output where
  /-- To the standard output. -/
  | standard
  /-- To a file. -/
  | file (path : String)
  /-- To a file that was asked for but not named. -/
  | unnamed
deriving DecidableEq

namespace Output

def ofReading (r : Reading) : Output :=
  match r.setting? .output with
  | none => .standard
  | some ⟨_, some path⟩ => .file path
  | some ⟨_, none⟩ => .unnamed

/-- What is wrong with a file that is not named. -/
def unnamedMessage : String := "expected str, bytes or os.PathLike object, not list"

end Output

/-- A task with all it needs to know. -/
inductive Task where
  /-- Writes the schema of a file as JSON. -/
  | parse (file : String) (output : Output) (pretty : Bool)
  /-- Checks the schema of a file. -/
  | validate (file : String)
  /-- Shows the credits. -/
  | credits
deriving DecidableEq

/-- A task and whether all entries are shown. -/
structure Invocation where
  verbose : Bool
  task : Task
deriving DecidableEq

def Task.ofReading (p : Program) (r : Reading) : Except Stop Task :=
  match p, r.file with
  | .parse, some file => .ok (.parse file (.ofReading r) (r.has .pretty))
  | .validate, some file => .ok (.validate file)
  | .credits, _ => .ok .credits
  | .main, _ => .error (.misuse .main (.required "command"))
  | p, none => .error (.misuse p (.required "FILE"))

def Task.ofArguments (p : Program) (arguments : List String) :
    Except Stop (Task × List String) :=
  match p.items arguments with
  | .error problem => .error (.misuse p problem)
  | .ok items =>
    match Reading.run p .empty items with
    | .error stop => .error stop
    | .ok r => (ofReading p r).map (·, r.extras)

namespace Invocation

/-- The invocation that names a subcommand, after `r` has been read. -/
def ofCommand (r : Reading) (word : String) (arguments : List String) : Except Stop Invocation :=
  match Program.subcommands.find? (·.word == word) with
  | none => .error (.misuse .main (.unknownCommand word))
  | some p =>
    match Task.ofArguments p arguments with
    | .error stop => .error stop
    | .ok (task, extras) =>
      if r.extras ++ extras = [] then .ok ⟨r.has .verbose, task⟩
      else .error (.misuse .main (.unrecognized (r.extras ++ extras)))

/-- The invocation that the items of the program make, after `r` has been read. -/
def ofItems (r : Reading) : List Item → Except Stop Invocation
  | [] => .error (.misuse .main (.required "command"))
  | .unknown text :: rest => ofItems (r.leave text) rest
  | .switch _ hit :: rest =>
    match r.take .main hit none with
    | .error stop => .error stop
    | .ok (r, _) => ofItems r rest
  | .plain word :: rest => ofCommand r word (rest.map (·.text))
  | .separator :: [] => .error (.misuse .main (.required "command"))
  | .separator :: rest => ofCommand r "--" (rest.map (·.text))

def ofArguments (arguments : List String) : Except Stop Invocation :=
  match Program.main.items arguments with
  | .error problem => .error (.misuse .main problem)
  | .ok items => ofItems .empty items

end Invocation

end ProtoSchema.Command
