import LazyLog.Utils.Properties

/-! # The command line (`ParseCommandLine`)

Every program is started with options: flags, options with a value, property files `-P file` and single properties
`-p name=value`. The options are gone through once, from left to right, and each sets its properties at once. So the
last one wins, a property file over an earlier `-p` as well, whatever the usage message says.

`Opt` and `Rejected` say what the options mean and what is refused, and the function does exactly that
(`command_line_is_read_iff`). A property file that cannot be opened is not reported: `Load` throws an `Exception`, and
the handler is for a `std::string`. -/

namespace LazyLog.Utils.CommandLine

open LazyLog.Utils.Properties

/-! ### The function -/

/-- How the program ends if the function does not return: after the usage message and maybe a line of its own, after a
line only, or by an exception that nobody handles. -/
inductive Exit
  | usage (message : Option String)
  | message (message : String)
  | terminate (what : List Char)

/-- `StrStartWith`. -/
def strStartWith (str pre : String) : Bool := pre.toList.isPrefixOf str.toList

/-- The line for an option without its value. -/
def missing (option : String) : Exit := .usage (some ("Missing argument value for " ++ option))

/-- The line for a `-p` without `=`. -/
def expected : Exit :=
  .message "Argument '-p' expected to be in key=value format (e.g., -p operationcount=99999)"

/-- The line for an option that there is not. -/
def unknown (option : String) : Exit := .usage (some ("Unknown option '" ++ option ++ "'"))

/-- The loop of `ParseCommandLine`, at the argument number `argindex` and with the arguments from there on. -/
def parseLoop (files : String → Option (List Char)) : Props → ℕ → List String → Except Exit (Props × ℕ)
  | props, argindex, [] => .ok (props, argindex)
  | props, argindex, arg :: rest =>
    if ¬ strStartWith arg "-" then .ok (props, argindex)
    else if arg = "-load" then
      parseLoop files (setProperty props "doload".toList "true".toList) (argindex + 1) rest
    else if arg = "-run" ∨ arg = "-t" then
      parseLoop files (setProperty props "dotransaction".toList "true".toList) (argindex + 1) rest
    else if arg = "-threads" then
      match rest with
      | [] => .error (missing "-threads")
      | value :: rest => parseLoop files (setProperty props "threadcount".toList value.toList) (argindex + 2) rest
    else if arg = "-db" then
      match rest with
      | [] => .error (missing "-db")
      | value :: rest => parseLoop files (setProperty props "dbname".toList value.toList) (argindex + 2) rest
    else if arg = "-P" then
      match rest with
      | [] => .error (missing "-P")
      | filename :: rest =>
        match load props (files filename) with
        | .error what => .error (.terminate what)
        | .ok props => parseLoop files props (argindex + 2) rest
    else if arg = "-p" then
      match rest with
      | [] => .error (missing "-p")
      | prop :: rest =>
        match keyValue prop.toList with
        | none => .error expected
        | some (key, value) => parseLoop files (setProperty props key value) (argindex + 2) rest
    else if arg = "-s" then
      parseLoop files (setProperty props "status".toList "true".toList) (argindex + 1) rest
    else if arg = "-l" then
      parseLoop files (setProperty props "leader".toList "true".toList) (argindex + 1) rest
    else .error (unknown arg)

/-- `ParseCommandLine`, on the arguments behind the name of the program; `files` are the files that can be opened. -/
def parseCommandLine (files : String → Option (List Char)) (props : Props) (args : List String) :
    Except Exit Props :=
  match parseLoop files props 1 args with
  | .error exit => .error exit
  | .ok (props, argindex) =>
    if argindex = 1 ∨ argindex ≠ args.length + 1 then .error (.usage none) else .ok props

/-! ### What is meant -/

/-- An option: a flag, a value for a property that is fixed, a property file or a property. -/
inductive Opt
  | flag (name key : String)
  | value (name key val : String)
  | file (filename : String)
  | prop (text : String)

/-- The flags, and the properties that they set. -/
def flags : List (String × String) :=
  [("-load", "doload"), ("-run", "dotransaction"), ("-t", "dotransaction"), ("-s", "status"), ("-l", "leader")]

/-- The options with a value for a property that is fixed. -/
def values : List (String × String) := [("-threads", "threadcount"), ("-db", "dbname")]

/-- There is such an option. -/
def Opt.Known : Opt → Prop
  | .flag name key => (name, key) ∈ flags
  | .value name key _ => (name, key) ∈ values
  | .file _ | .prop _ => True

/-- The arguments of an option. -/
def Opt.args : Opt → List String
  | .flag name _ => [name]
  | .value name _ val => [name, val]
  | .file filename => ["-P", filename]
  | .prop text => ["-p", text]

/-- What an option assigns, if it can be obeyed. -/
def Opt.assigns (files : String → Option (List Char)) : Opt → Option (List (List Char × List Char))
  | .flag _ key => some [(key.toList, "true".toList)]
  | .value _ key val => some [(key.toList, val.toList)]
  | .file filename => (files filename).map fun text => (text.splitOn '\n').filterMap lineAssignment
  | .prop text => (keyValue text.toList).map fun kv => [kv]

/-- The option is obeyed, and assigns this. -/
def Opt.Assigns (files : String → Option (List Char)) (opt : Opt) (part : List (List Char × List Char)) : Prop :=
  opt.Known ∧ opt.assigns files = some part

/-- The arguments are refused, for the first of them. -/
inductive Rejected (files : String → Option (List Char)) : List String → Exit → Prop
  | missing {option : String} (h : option ∈ ["-threads", "-db", "-P", "-p"]) :
    Rejected files [option] (missing option)
  | notOpen {filename : String} (rest : List String) (h : files filename = none) :
    Rejected files ("-P" :: filename :: rest) (.terminate "File not open!".toList)
  | expected {prop : String} (rest : List String) (h : '=' ∉ prop.toList) :
    Rejected files ("-p" :: prop :: rest) expected
  | unknown {arg : String} (rest : List String) (h : strStartWith arg "-" = true)
    (hno : arg ∉ (flags ++ values).map Prod.fst ++ ["-P", "-p"]) : Rejected files (arg :: rest) (unknown arg)
  | word {arg : String} (rest : List String) (h : strStartWith arg "-" = false) :
    Rejected files (arg :: rest) (.usage none)

/-! ### One option, and all of them -/

variable {files : String → Option (List Char)} {props : Props} {argindex : ℕ} {args rest : List String}

theorem keyValue_eq_none_iff {text : List Char} : keyValue text = none ↔ '=' ∉ text := by
  unfold keyValue
  rcases delim_cases '=' text with hno | ⟨left, right, rfl, hleft⟩
  · simp [getline_of_notMem hno, hno]
  · simp [getline_append hleft]

/-- **An option is read.** -/
theorem parseLoop_opt {opt : Opt} {part : List (List Char × List Char)} (h : opt.Assigns files part) :
    parseLoop files props argindex (opt.args ++ rest) =
      parseLoop files (setAll props part) (argindex + opt.args.length) rest := by
  obtain ⟨hknown, hpart⟩ := h
  cases opt with
  | flag name key =>
    obtain rfl := Option.some.inj hpart
    simp only [Opt.Known, flags, List.mem_cons, Prod.mk.injEq, List.not_mem_nil, or_false] at hknown
    -- the arguments behind the flag are not looked at
    conv_lhs => rw [Opt.args, List.singleton_append, parseLoop.eq_def]
    rcases hknown with ⟨rfl, rfl⟩ | ⟨rfl, rfl⟩ | ⟨rfl, rfl⟩ | ⟨rfl, rfl⟩ | ⟨rfl, rfl⟩ <;>
      simp [Opt.args, strStartWith, setAll]
  | value name key val =>
    obtain rfl := Option.some.inj hpart
    simp only [Opt.Known, values, List.mem_cons, Prod.mk.injEq, List.not_mem_nil, or_false] at hknown
    rcases hknown with ⟨rfl, rfl⟩ | ⟨rfl, rfl⟩ <;> simp [Opt.args, parseLoop, strStartWith, setAll]
  | file filename =>
    obtain ⟨text, htext, rfl⟩ := Option.map_eq_some_iff.mp hpart
    simp [Opt.args, parseLoop, strStartWith, htext, load, loadLoop_eq]
  | prop text =>
    obtain ⟨kv, hkv, rfl⟩ := Option.map_eq_some_iff.mp hpart
    simp [Opt.args, parseLoop, strStartWith, hkv, setAll]

/-- **The options are read one after the other.** -/
theorem parseLoop_opts {opts : List Opt} {parts : List (List (List Char × List Char))}
    (h : List.Forall₂ (Opt.Assigns files) opts parts) :
    parseLoop files props argindex (opts.flatMap Opt.args ++ rest) =
      parseLoop files (setAll props parts.flatten) (argindex + (opts.flatMap Opt.args).length) rest := by
  induction h generalizing props argindex with
  | nil => rfl
  | cons hopt _ ih =>
    rw [List.flatMap_cons, List.append_assoc, parseLoop_opt hopt, ih, List.flatten_cons, setAll_append,
      List.length_append, Nat.add_assoc]

/-- **What is refused ends the loop**: with an exit, or with arguments left. -/
theorem parseLoop_rejected {exit : Exit} (h : Rejected files args exit) :
    parseLoop files props argindex args = .error exit ∨
      exit = .usage none ∧ args ≠ [] ∧ parseLoop files props argindex args = .ok (props, argindex) := by
  cases h with
  | missing hmem =>
    simp only [List.mem_cons, List.not_mem_nil, or_false] at hmem
    left
    rcases hmem with rfl | rfl | rfl | rfl <;> simp [parseLoop, strStartWith]
  | notOpen rest hfile =>
    left
    simp [parseLoop, strStartWith, hfile, load]
  | expected rest hprop =>
    left
    simp [parseLoop, strStartWith, keyValue_eq_none_iff.mpr hprop]
  | unknown rest hopt hno =>
    simp only [flags, values, List.cons_append, List.nil_append, List.map_cons, List.map_nil, List.mem_cons,
      List.not_mem_nil, or_false, not_or] at hno
    left
    rw [parseLoop.eq_def]
    simp [hopt, hno]
  | word rest hword =>
    refine Or.inr ⟨rfl, List.cons_ne_nil _ _, ?_⟩
    rw [parseLoop.eq_def]
    simp [hword]

/-- The first argument begins an option, or it is refused. -/
theorem opt_or_rejected (files : String → Option (List Char)) (arg : String) (rest : List String) :
    (∃ (opt : Opt) (part : List (List Char × List Char)) (rest' : List String),
        arg :: rest = opt.args ++ rest' ∧ opt.Assigns files part) ∨
      ∃ exit, Rejected files (arg :: rest) exit := by
  by_cases hopt : strStartWith arg "-" = true
  swap
  · exact Or.inr ⟨_, .word rest (Bool.not_eq_true _ ▸ hopt)⟩
  by_cases hno : arg ∉ (flags ++ values).map Prod.fst ++ ["-P", "-p"]
  · exact Or.inr ⟨_, .unknown rest hopt hno⟩
  simp only [not_not, List.map_append, List.mem_append] at hno
  rcases hno with (hflag | hvalue) | hmem
  · obtain ⟨⟨name, key⟩, hmem, rfl⟩ := List.mem_map.mp hflag
    exact Or.inl ⟨.flag name key, _, rest, rfl, hmem, rfl⟩
  · obtain ⟨⟨name, key⟩, hmem, rfl⟩ := List.mem_map.mp hvalue
    rcases rest with _ | ⟨val, rest⟩
    · refine Or.inr ⟨_, .missing ?_⟩
      simp only [values, List.mem_cons, Prod.mk.injEq, List.not_mem_nil, or_false] at hmem
      rcases hmem with ⟨rfl, -⟩ | ⟨rfl, -⟩ <;> simp
    · exact Or.inl ⟨.value name key val, _, rest, rfl, hmem, rfl⟩
  · simp only [List.mem_cons, List.not_mem_nil, or_false] at hmem
    rcases rest with _ | ⟨val, rest⟩
    · refine Or.inr ⟨_, .missing ?_⟩
      rcases hmem with rfl | rfl <;> simp
    · rcases hmem with rfl | rfl
      · cases hfile : files val with
        | none => exact Or.inr ⟨_, .notOpen rest hfile⟩
        | some text => exact Or.inl ⟨.file val, _, rest, rfl, trivial, by rw [Opt.assigns, hfile]; rfl⟩
      · cases hkv : keyValue val.toList with
        | none => exact Or.inr ⟨_, .expected rest (keyValue_eq_none_iff.mp hkv)⟩
        | some kv => exact Or.inl ⟨.prop val, _, rest, rfl, trivial, by rw [Opt.assigns, hkv]; rfl⟩

theorem Opt.args_ne_nil (opt : Opt) : opt.args ≠ [] := by
  cases opt <;> exact List.cons_ne_nil _ _

/-- **All arguments are options, up to one that is refused.** -/
theorem exists_opts (files : String → Option (List Char)) (args : List String) :
    ∃ opts parts rest, args = opts.flatMap Opt.args ++ rest ∧ List.Forall₂ (Opt.Assigns files) opts parts ∧
      (rest = [] ∨ ∃ exit, Rejected files rest exit) := by
  induction hn : args.length using Nat.strong_induction_on generalizing args with
  | _ n ih =>
    rcases args with _ | ⟨arg, rest⟩
    · exact ⟨[], [], [], rfl, .nil, Or.inl rfl⟩
    rcases opt_or_rejected files arg rest with ⟨opt, part, rest', heq, hopt⟩ | hexit
    · have hlen := congrArg List.length heq
      rw [List.length_append] at hlen
      have hpos := List.length_pos_iff.mpr opt.args_ne_nil
      obtain ⟨opts, parts, last, hrest, hopts, hlast⟩ := ih rest'.length (by omega) rest' rfl
      refine ⟨opt :: opts, part :: parts, last, ?_, .cons hopt hopts, hlast⟩
      rw [heq, hrest, List.flatMap_cons, List.append_assoc]
    · exact ⟨[], [], arg :: rest, rfl, .nil, Or.inr hexit⟩

/-! ### The result -/

theorem parseCommandLine_nil : parseCommandLine files props [] = .error (.usage none) := rfl

theorem parseCommandLine_opts {opts : List Opt} {parts : List (List (List Char × List Char))} (hne : opts ≠ [])
    (h : List.Forall₂ (Opt.Assigns files) opts parts) :
    parseCommandLine files props (opts.flatMap Opt.args) = .ok (setAll props parts.flatten) := by
  have hpos : 0 < (opts.flatMap Opt.args).length := by
    obtain ⟨opt, opts, rfl⟩ := List.exists_cons_of_ne_nil hne
    have hopt := List.length_pos_iff.mpr opt.args_ne_nil
    rw [List.flatMap_cons, List.length_append]
    omega
  unfold parseCommandLine
  rw [← List.append_nil (opts.flatMap Opt.args), parseLoop_opts h, List.append_nil]
  exact if_neg (by omega)

theorem parseCommandLine_rejected {opts : List Opt} {parts : List (List (List Char × List Char))} {exit : Exit}
    (h : List.Forall₂ (Opt.Assigns files) opts parts) (hrest : Rejected files rest exit) :
    parseCommandLine files props (opts.flatMap Opt.args ++ rest) = .error exit := by
  unfold parseCommandLine
  rw [parseLoop_opts h]
  rcases parseLoop_rejected hrest with herror | ⟨rfl, hne, hok⟩
  · rw [herror]
  · rw [hok]
    have hpos := List.length_pos_iff.mpr hne
    refine if_pos (Or.inr ?_)
    rw [List.length_append]
    omega

/-- **The command line is read as it is meant**: the function returns exactly if there are arguments, all of them are
options and each can be obeyed, and then the last assignment to a property has set it, by whichever option; otherwise
it ends the program as the first argument that is refused says. -/
theorem command_line_is_read_iff (files : String → Option (List Char)) (props : Props) (args : List String) :
    (∀ props', parseCommandLine files props args = .ok props' ↔
      ∃ opts parts, opts ≠ [] ∧ args = opts.flatMap Opt.args ∧ List.Forall₂ (Opt.Assigns files) opts parts ∧
        ∀ key, props' key = (lastValue key parts.flatten).or (props key)) ∧
    ∀ exit, parseCommandLine files props args = .error exit ↔
      args = [] ∧ exit = .usage none ∨
        ∃ opts parts rest, args = opts.flatMap Opt.args ++ rest ∧ List.Forall₂ (Opt.Assigns files) opts parts ∧
          Rejected files rest exit := by
  obtain ⟨opts, parts, rest, hargs, hopts, hrest⟩ := exists_opts files args
  constructor
  · intro props'
    constructor
    · intro hok
      rcases hrest with rfl | ⟨exit, hexit⟩
      · rw [List.append_nil] at hargs
        rcases eq_or_ne opts [] with rfl | hne
        · rw [hargs] at hok
          cases hok
        · rw [hargs, parseCommandLine_opts hne hopts] at hok
          obtain rfl := Except.ok.inj hok
          exact ⟨opts, parts, hne, hargs, hopts, setAll_apply props parts.flatten⟩
      · rw [hargs, parseCommandLine_rejected hopts hexit] at hok
        cases hok
    · rintro ⟨opts', parts', hne, rfl, hopts', hprops⟩
      rw [parseCommandLine_opts hne hopts']
      refine congrArg Except.ok (funext fun key => ?_)
      rw [setAll_apply, hprops]
  · intro exit
    constructor
    · intro herror
      rcases hrest with rfl | ⟨exit', hexit⟩
      · rw [List.append_nil] at hargs
        rcases eq_or_ne opts [] with rfl | hne
        · obtain rfl : args = [] := hargs
          exact Or.inl ⟨rfl, (Except.error.inj herror).symm⟩
        · rw [hargs, parseCommandLine_opts hne hopts] at herror
          cases herror
      · rw [hargs, parseCommandLine_rejected hopts hexit] at herror
        obtain rfl := Except.error.inj herror
        exact Or.inr ⟨opts, parts, rest, hargs, hopts, hexit⟩
    · rintro (⟨rfl, rfl⟩ | ⟨opts', parts', rest', rfl, hopts', hexit⟩)
      · exact parseCommandLine_nil
      · exact parseCommandLine_rejected hopts' hexit

end LazyLog.Utils.CommandLine
