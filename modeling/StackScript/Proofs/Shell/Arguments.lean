import StackScript.Proofs.Fallible
import StackScript.Shell.Arguments

/-!
# Options of `run` and `exec`

The two verbs that run a program take the same options, but for the listing that only `run` can show. Main statement
(`parse_exec`): the arguments that `run` takes after its file without being asked for a listing are
taken by `exec` after any file, and to the same options.
-/

namespace StackScript
namespace Shell

/-! ### Single arguments -/

/-- A text that cannot be taken for an option is a plain argument of every verb. -/
theorem Argument.read_of_not_looksLikeOption (verb : Verb) {text : String} (h : looksLikeOption text = false) :
    Argument.read verb text = .plain text := by
  unfold Argument.read
  unfold looksLikeOption at h
  split
  · next hdashes => simp [hdashes] at h
  · next cs hdashes => simp [hdashes] at h
  · rfl
  · next cs _ _ hshort hdash =>
    cases cs with
    | nil => exact absurd rfl hshort
    | cons c cs => simp [hdash] at h
  · rfl

/-- What is an option of `run` is one of `exec`, unless it is the listing, which `exec` does not know. -/
theorem Setting.ofName?_exec (name : String) :
    Setting.ofName? .run name = some .listing ∧ Setting.ofName? .exec name = none ∨
      Setting.ofName? .exec name = Setting.ofName? .run name := by
  by_cases hname : Setting.listing.name = name
  · left
    rw [← hname]
    decide
  · right
    have hrun : Setting.allowed .run = .listing :: Setting.allowed .exec := rfl
    rw [Setting.ofName?, Setting.ofName?, hrun, List.find?_cons_of_neg (by simpa using hname)]

theorem Argument.long_exec (cs : List Char) :
    Argument.long .run cs = .flag .listing ∨ Argument.long .exec cs = Argument.long .run cs := by
  unfold Argument.long
  by_cases hhelp : cs = "help".toList
  · rw [if_pos hhelp, if_pos hhelp]
    exact .inr rfl
  rw [if_neg hhelp, if_neg hhelp]
  rcases Setting.ofName?_exec (String.ofList (cs.takeWhile (· != '='))) with ⟨hrun, hexec⟩ | hsame
  · rw [hrun, hexec]
    cases cs.dropWhile (· != '=') with
    | nil => exact .inl rfl
    | cons c rest => exact .inr rfl
  · rw [hsame]
    exact .inr rfl

theorem Argument.read_exec (text : String) :
    Argument.read .run text = .flag .listing ∨ Argument.read .exec text = Argument.read .run text := by
  unfold Argument.read
  split
  · exact .inr rfl
  · exact Argument.long_exec _
  · exact .inr rfl
  · exact .inr rfl
  · exact .inr rfl

/-! ### All arguments -/

namespace Draft

/-- The draft with another file. -/
def withFile (d : Draft) (file : String) : Draft := { d with file := some file }

theorem setValue_withFile (d : Draft) (file : String) (setting : Setting) (value : String) :
    (d.withFile file).setValue setting value = (d.setValue setting value).map (·.withFile file) := by
  cases setting with
  | listing => rfl
  | output =>
    show (d.withFile file).setOutput value = (d.setOutput value).map (·.withFile file)
    unfold setOutput
    show (if d.output.isSome || value.isEmpty then _ else _) = _
    split <;> rfl
  | binding =>
    simp only [setValue]
    cases (parseVariable value).mapError (ArgumentError.rejected .binding value) <;> rfl
  | stackCapacity =>
    show (natural .stackCapacity d.options.stackCapacity value >>= _) = _
    simp only [setValue]
    cases natural .stackCapacity d.options.stackCapacity value <;> rfl
  | maxSteps =>
    show (natural .maxSteps d.options.maxSteps value >>= _) = _
    simp only [setValue]
    cases natural .maxSteps d.options.maxSteps value <;> rfl

theorem setValue_keeps {d d' : Draft} {setting : Setting} {value : String} (h : d.setValue setting value = .ok d') :
    d'.file = d.file ∧ d'.listing = d.listing := by
  cases setting with
  | listing => cases h
  | output =>
    simp only [setValue, setOutput] at h
    split at h
    · cases h
    · cases h
      exact ⟨rfl, rfl⟩
  | binding =>
    obtain ⟨v, -, hd⟩ := Fallible.bind_eq_ok_iff.mp h
    cases hd
    exact ⟨rfl, rfl⟩
  | stackCapacity =>
    obtain ⟨n, -, hd⟩ := Fallible.bind_eq_ok_iff.mp h
    cases hd
    exact ⟨rfl, rfl⟩
  | maxSteps =>
    obtain ⟨n, -, hd⟩ := Fallible.bind_eq_ok_iff.mp h
    cases hd
    exact ⟨rfl, rfl⟩

/-- An argument is read alike for `run` and `exec`, also behind the separator. -/
theorem read_exec_of_ne {optionsOver : Bool} {text : String} {a : Argument}
    (h : (if optionsOver then .plain text else Argument.read .run text) = a) (ha : a ≠ .flag .listing) :
    (if optionsOver then .plain text else Argument.read .exec text) = a := by
  cases optionsOver with
  | true => exact h
  | false =>
    rcases Argument.read_exec text with hflag | hsame
    · exact absurd (h.symm.trans hflag) ha
    · exact hsame.trans h

/-- Behind a file, `exec` takes the arguments that `run` takes, unless they ask for a listing. -/
theorem addAll_exec (file : String) {optionsOver : Bool} {pending : Option ArgumentError} {d d' : Draft} {args : List String}
    (hfile : d.file.isSome = true) (h : addAll .run optionsOver pending d args = .ok d') :
    (d.listing = true → d'.listing = true) ∧
      (d'.listing = false → addAll .exec optionsOver pending (d.withFile file) args = .ok (d'.withFile file)) := by
  fun_induction addAll .run optionsOver pending d args generalizing d' with
  | case1 optionsOver pending d =>
    obtain ⟨u, hsettle, hd⟩ := Fallible.bind_eq_ok_iff.mp h
    cases hd
    refine ⟨id, fun _ => ?_⟩
    rw [addAll, hsettle]
    rfl
  | case2 optionsOver pending d text rest hread => cases h
  | case3 optionsOver pending d text rest hread =>
    obtain ⟨u, -, hthrow⟩ := Fallible.bind_eq_ok_iff.mp h
    cases hthrow
  | case4 optionsOver pending d text rest hread ih =>
    obtain ⟨hkeeps, hexec⟩ := ih hfile h
    refine ⟨hkeeps, fun hlisting => ?_⟩
    rw [addAll, read_exec_of_ne hread (by simp)]
    exact hexec hlisting
  | case5 optionsOver pending d text rest name hread hsome => cases h
  | case6 optionsOver pending d text rest name hread hnone ih => exact absurd hfile hnone
  | case7 optionsOver pending d text rest setting hread ih =>
    obtain ⟨u, -, hrest⟩ := Fallible.bind_eq_ok_iff.mp h
    obtain ⟨d₁, hset, hall⟩ := Fallible.bind_eq_ok_iff.mp hrest
    have hd₁ : d₁ = { d with listing := true } := by
      unfold setListing at hset
      split at hset
      · cases hset
      · exact (Except.ok.inj hset).symm
    obtain ⟨hkeeps, -⟩ := ih d₁ (by rw [hd₁]; exact hfile) hall
    have hlisting := hkeeps (by rw [hd₁])
    exact ⟨fun _ => hlisting, fun hnot => absurd (hlisting.symm.trans hnot) (by decide)⟩
  | case8 optionsOver pending d text rest setting value hread ih =>
    obtain ⟨u, hsettle, hrest⟩ := Fallible.bind_eq_ok_iff.mp h
    obtain ⟨d₁, hset, hall⟩ := Fallible.bind_eq_ok_iff.mp hrest
    obtain ⟨hd₁file, hd₁listing⟩ := setValue_keeps hset
    obtain ⟨hkeeps, hexec⟩ := ih d₁ (by rw [hd₁file]; exact hfile) hall
    refine ⟨fun hlisting => hkeeps (by rw [hd₁listing]; exact hlisting), fun hlisting => ?_⟩
    rw [addAll, read_exec_of_ne hread (by simp)]
    show (settle pending >>= _) = _
    rw [hsettle, Fallible.ok_bind, setValue_withFile, hset]
    exact hexec hlisting
  | case9 optionsOver pending d text rest setting hread ih =>
    obtain ⟨u, hsettle, hrest⟩ := Fallible.bind_eq_ok_iff.mp h
    cases rest with
    | nil => cases hrest
    | cons value rest =>
      simp only at hrest
      split at hrest
      · cases hrest
      · next hplain =>
        split at hrest
        · next d₁ hset =>
          obtain ⟨hd₁file, hd₁listing⟩ := setValue_keeps hset
          obtain ⟨hkeeps, hexec⟩ := ih.1 d₁ (by rw [hd₁file]; exact hfile) hrest
          refine ⟨fun hlisting => hkeeps (by rw [hd₁listing]; exact hlisting), fun hlisting => ?_⟩
          rw [addAll, read_exec_of_ne hread (by simp)]
          show (settle pending >>= _) = _
          rw [hsettle, Fallible.ok_bind]
          simp only
          rw [if_neg hplain, setValue_withFile, hset]
          exact hexec hlisting
        · next e hset =>
          obtain ⟨hkeeps, hexec⟩ := ih.2 e hfile hrest
          refine ⟨hkeeps, fun hlisting => ?_⟩
          rw [addAll, read_exec_of_ne hread (by simp)]
          show (settle pending >>= _) = _
          rw [hsettle, Fallible.ok_bind]
          simp only
          rw [if_neg hplain, setValue_withFile, hset]
          exact hexec hlisting

end Draft

/-! ### Command lines -/

theorem Draft.setFile_empty {file : String} (hne : file ≠ "") :
    ({} : Draft).setFile file = .ok (({} : Draft).withFile file) := by
  unfold setFile
  rw [if_neg (by simpa using hne)]
  rfl

theorem Draft.addAll_file (verb : Verb) {file : String} (hplain : looksLikeOption file = false)
    (args : List String) :
    Draft.addAll verb false none {} (file :: args) =
      (({} : Draft).setFile file >>= fun d => Draft.addAll verb false none d args) := by
  rw [addAll, if_neg (by decide), Argument.read_of_not_looksLikeOption verb hplain]
  rfl

/-- A file that is taken has a name. -/
theorem Draft.ne_empty_of_addAll_file {verb : Verb} {file : String} {args : List String} {d : Draft}
    (hplain : looksLikeOption file = false) (h : Draft.addAll verb false none {} (file :: args) = .ok d) :
    file ≠ "" := by
  rintro rfl
  rw [addAll_file verb hplain] at h
  cases h

theorem Request.parse_eq_ok_iff {first : String} {verb : Verb} {args : List String} {c : Command}
    (hversion : asksVersion first = false) (hhelp : asksHelp first = false)
    (hverb : Verb.ofName? first = some verb) :
    Request.parse (first :: args) = .ok (.command c) ↔
      ∃ d, Draft.addAll verb false none {} args = .ok d ∧ d.command? verb = some c := by
  rw [Request.parse, if_neg (by rw [hversion]; decide), if_neg (by rw [hhelp]; decide), hverb]
  simp only [Fallible.bind_eq_ok_iff]
  refine exists_congr fun d => and_congr_right fun _ => ?_
  cases d.command? verb with
  | none => simp
  | some c' => simp

theorem Command.parse_eq_ok_iff {args : List String} {c : Command} :
    Command.parse args = .ok c ↔ Request.parse args = .ok (.command c) := by
  unfold Command.parse
  cases Request.parse args with
  | error e => simp
  | ok request => cases request <;> simp

/-- Where `run` takes a file and options and shows no listing, `exec` takes any file and the same options. -/
theorem Request.parse_exec {file output : String} {args : List String} {o : RunOptions}
    (hfile : looksLikeOption file = false) (houtput : looksLikeOption output = false) (hne : output ≠ "")
    (h : Request.parse ("run" :: file :: args) = .ok (.command (.run file false o))) :
    Request.parse ("exec" :: output :: args) = .ok (.command (.exec output o)) := by
  obtain ⟨d, hall, hcommand⟩ := (Request.parse_eq_ok_iff (by decide) (by decide) rfl).mp h
  have hne' := Draft.ne_empty_of_addAll_file hfile hall
  rw [Draft.addAll_file .run hfile, Draft.setFile_empty hne', Fallible.ok_bind] at hall
  obtain ⟨name, -, hcommand⟩ := Option.bind_eq_some_iff.mp hcommand
  obtain ⟨-, hlisting, hoptions⟩ := Command.run.inj (Option.some.inj hcommand)
  obtain ⟨-, hexec⟩ := Draft.addAll_exec output rfl hall
  refine (Request.parse_eq_ok_iff (by decide) (by decide) rfl).mpr ⟨d.withFile output, ?_, ?_⟩
  · rw [Draft.addAll_file .exec houtput, Draft.setFile_empty hne, Fallible.ok_bind]
    exact hexec hlisting
  · rw [← hoptions]
    rfl

/-- A file and an output are all that `build` needs. -/
theorem Request.parse_build {file output : String} (hfile : looksLikeOption file = false) (hne : file ≠ "")
    (houtput : looksLikeOption output = false) (hne' : output ≠ "") :
    Request.parse ["build", file, "-o", output] = .ok (.command (.build file (some output))) := by
  have hset : (({} : Draft).withFile file).setValue .output output =
      .ok { ({} : Draft).withFile file with output := some output } := by
    show Draft.setOutput _ output = _
    unfold Draft.setOutput
    rw [if_neg (by simpa [Draft.withFile] using hne')]
  refine (Request.parse_eq_ok_iff (by decide) (by decide) rfl).mpr ⟨{ ({} : Draft).withFile file with output := some output }, ?_, rfl⟩
  have hread : Argument.read .build "-o" = .option .output := by decide
  rw [Draft.addAll_file .build hfile, Draft.setFile_empty hne, Fallible.ok_bind, Draft.addAll, if_neg (by decide), hread]
  show (if looksLikeOption output = true then _ else _) = _
  rw [houtput, if_neg (by decide), hset]
  rfl

end Shell
end StackScript
