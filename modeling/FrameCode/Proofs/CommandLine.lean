import FrameCode.CommandLine
import FrameCode.Proofs.Messages
import FrameCode.Proofs.Streams

/-! What the commands answer about a source that can be read. On streams that work a run ends in
a status or in an error of the program, and in no other way (`Program.stop_of_ofSource`). A
source with an error in it is answered before there is a machine, by all commands alike. -/

namespace FrameCode

/-! ## Streams that work -/

namespace Host.Obliging

variable {host : Host} (h : host.Obliging)
include h

theorem not_refuses (message : String) (host' : Host) : ¬host.Refuses message host' := by
  intro hrefuses
  cases hrefuses with
  | read refused =>
    rw [h.input.read] at refused
    cases refused
  | @output text _ refused =>
    have hok := (h.output.write text).1
    rw [refused] at hok
    cases hok
  | @diagnostics text _ refused =>
    have hok := (h.diagnostics.write text).1
    rw [refused] at hok
    cases hok

theorem flush : host.flush = .ok () := by
  simp only [Host.flush, h.output.2, h.diagnostics.2]

end Host.Obliging

theorem Host.obliging_ofBytes (bytes : List UInt8) :
    ({ input := .ofBytes bytes } : Host).Obliging :=
  ⟨fun _ => rfl, ⟨fun _ _ _ => rfl, rfl⟩, ⟨fun _ _ _ => rfl, rfl⟩⟩

theorem Machine.conclude_of_obliging {m : Machine} (h : m.host.Obliging) (why : Stop) :
    m.conclude why = why.status := by
  unfold conclude
  rw [h.flush]
  cases why <;> rfl

/-- A host that refuses nothing is never left for one that does. -/
theorem Reachable.obliging {p : Program} (hp : p.WellFormed) {host : Host} (hh : host.Obliging)
    {m : Machine} (h : Reachable p host m) : m.host.Obliging := by
  induction h with
  | start => exact hh
  | @advance m _ ih =>
    cases hi : p.fetch? m.position with
    | none =>
      rw [Machine.advance_of_none hi]
      exact ih
    | some i =>
      rw [Machine.advance_of_some hi, Step.host_progress]
      have hcounted : m.counted.host.Obliging := ih
      exact (Machine.serves_step p.labels (hp.conforms_of_fetch? hi) hcounted).obliging

/-! ## How a run ends -/

/-- An ordinary cause has one of the codes from 52 to 58. -/
theorem Cause.code_of_isOrdinary {cause : Cause} (h : cause.isOrdinary = true) :
    52 ≤ cause.errorClass.code ∧ cause.errorClass.code ≤ 58 := by
  have hclass := Cause.errorClass_of_isOrdinary h
  generalize cause.errorClass = c at hclass ⊢
  revert c
  decide

/-- A program of a source text ends with a status up to 9, or with an error of one line and a
class of its own. The host has no part in it, and the source is not to blame any more. -/
theorem Program.stop_of_ofSource {text : String} {p : Program} (hp : ofSource text = .ok p)
    {host : Host} (hh : host.Obliging) {fuel : Nat} {why : Stop} {m : Machine}
    (h : (Machine.start host).run p fuel = .stopped why m) :
    m.host.Obliging ∧ (∀ status, why.status = .ok status → status ≤ 9) ∧
      ∀ e, why.status = .error e →
        Text.OneLine e.message ∧ 52 ≤ e.errorClass.code ∧ e.errorClass.code ≤ 58 := by
  obtain ⟨nodes, -, hload⟩ := ofSource_eq_ok_iff.mp hp
  have hwell := wellFormed_of_load hload
  have hlast : Reachable p host ((Machine.start host).run p fuel).machine :=
    Reachable.start.run fuel
  rw [h] at hlast
  refine ⟨hlast.obliging hwell hh, ?_⟩
  obtain ⟨last, hreached, hadvance⟩ := Reachable.start.exists_last h
  cases Machine.stops_of_advance hwell (hreached.placed hwell) hadvance with
  | ended _ =>
    refine ⟨fun status hstatus => ?_, fun e he => (by cases he)⟩
    cases hstatus
    exact Nat.zero_le 9
  | exited _ bound _ =>
    refine ⟨fun status hstatus => ?_, fun e he => (by cases he)⟩
    cases hstatus
    exact bound
  | failed _ cause _ =>
    refine ⟨fun status hstatus => (by cases hstatus), fun e he => ?_⟩
    cases he
    rcases cause with ⟨-, hordinary⟩ | ⟨message, -, hrefuses⟩
    · exact ⟨RunError.oneLine_of_run (plainNames_of_ofSource hp) h hordinary,
        Cause.code_of_isOrdinary hordinary⟩
    · exact absurd hrefuses ((hreached.obliging hwell hh).not_refuses message _)

/-- The code 32 is that of the structural class, and a source has no errors but that and the
semantic one. -/
theorem BuildError.code_of_ofSource {text : String} {e : BuildError}
    (h : Program.ofSource text = .error e) :
    (e.errorClass.code = 32 ∨ e.errorClass.code = 52) ∧
      (e.errorClass.code = 32 ↔ (∃ e, Source.assemble text = .error e) ∨
        ∃ ns e, Source.assemble text = .ok ns ∧ Program.load ns = .error e ∧
          e.errorClass = .structural) := by
  rcases bind_eq_error_iff.mp h with hassemble | ⟨ns, hns, hload⟩
  · obtain ⟨e, he, rfl⟩ := mapError_eq_error_iff.mp hassemble
    exact ⟨.inl rfl, fun _ => .inl ⟨e, he⟩, fun _ => rfl⟩
  · obtain ⟨e, he, rfl⟩ := mapError_eq_error_iff.mp hload
    rw [mapError_eq_ok_iff] at hns
    obtain ⟨k, n, d, -, -, hadd⟩ := Draft.exists_refused (Program.load_eq_error_iff.mp he)
    have hclass := (Draft.errorClass_of_add hadd).1
    show (e.errorClass.code = 32 ∨ e.errorClass.code = 52) ∧ (e.errorClass.code = 32 ↔ _)
    refine ⟨?_, fun hcode => .inr ⟨ns, e, hns, he, ?_⟩, ?_⟩
    · rcases hclass with hclass | hclass <;> simp [hclass, ErrorClass.code]
    · refine hclass.resolve_left fun hsemantic => ?_
      rw [hsemantic] at hcode
      cases hcode
    · rintro (⟨e', he'⟩ | ⟨ns', e', hns', he', hstructural⟩)
      · rw [hns] at he'
        cases he'
      · rw [hns] at hns'
        cases hns'
        rw [he] at he'
        cases he'
        rw [hstructural]
        rfl

theorem sound_of_ofSource {text : String} {p : Program} (h : Program.ofSource text = .ok p) :
    ¬((∃ e, Source.assemble text = .error e) ∨
      ∃ ns e, Source.assemble text = .ok ns ∧ Program.load ns = .error e ∧
        e.errorClass = .structural) := by
  obtain ⟨ns, hns, hload⟩ := Program.ofSource_eq_ok_iff.mp h
  rintro (⟨e, he⟩ | ⟨ns', e, hns', he, -⟩)
  · rw [hns] at he
    cases he
  · cases hns.symm.trans hns'
    rw [hload] at he
    cases he

namespace CommandLine

/-! ## Commands -/

theorem program_of_ofSource {file : String → File} {path text : String}
    (hfile : (file path).text = .ok text) {p : Program} (h : Program.ofSource text = .ok p) :
    program file path = .ok p := by
  simp only [program, hfile, h, Except.mapError]

section Answers

variable {file : String → File} {path text : String} (hfile : (file path).text = .ok text)
  {args : List String} {command : Command}
  (hargs : Request.ofArguments args = some (.perform command path none))
include hfile hargs

/-- The answer does not wait for an input, nor for the command that is asked for. -/
theorem outcome_of_error {e : BuildError} (h : Program.ofSource text = .error e) (stdin : Input)
    (fuel : Nat) :
    outcome file stdin args fuel = some (.failure e.errorClass.code e.message) := by
  have hprogram : program file path = .error (.failure e.errorClass.code e.message) := by
    simp only [program, hfile, h, Except.mapError]
  have hplan : plan file args = .done (.failure e.errorClass.code e.message) := by
    simp only [plan, hargs, perform, hprogram]
  simp only [outcome, hplan]

variable {p : Program} (h : Program.ofSource text = .ok p)
include h

theorem outcome_check (hcheck : command = .check) (stdin : Input) (fuel : Nat) :
    ∃ stdout, outcome file stdin args fuel = some ⟨0, stdout, ""⟩ := by
  subst hcheck
  have hplan : ∃ stdout, plan file args = .done ⟨0, stdout, ""⟩ := by
    simp only [plan, hargs, perform, program_of_ofSource hfile h]
    exact ⟨_, rfl⟩
  obtain ⟨stdout, hplan⟩ := hplan
  exact ⟨stdout, by simp only [outcome, hplan]⟩

theorem outcome_listing (hlisting : command = .listing) (stdin : Input) (fuel : Nat) :
    outcome file stdin args fuel = some ⟨0, p.listing, ""⟩ := by
  subst hlisting
  have hplan : plan file args = .done ⟨0, p.listing, ""⟩ := by
    simp only [plan, hargs, perform, program_of_ofSource hfile h]
  simp only [outcome, hplan]

theorem plan_run (hrun : command = .run) : plan file args = .run p none := by
  subst hrun
  simp only [plan, hargs, perform, program_of_ofSource hfile h]

/-- A run is answered when its machine stops. -/
theorem outcome_of_stopped (hrun : command = .run) {stdin : Input} {fuel : Nat} {why : Stop}
    {m : Machine} (hstop : (Machine.start { input := stdin }).run p fuel = .stopped why m) :
    outcome file stdin args fuel = some (.ofRun m why) := by
  simp only [outcome, plan_run hfile hargs h hrun, Option.getD_none, hstop]

theorem outcome_of_running (hrun : command = .run) {stdin : Input} {fuel : Nat} {m : Machine}
    (hgoes : (Machine.start { input := stdin }).run p fuel = .running m) :
    outcome file stdin args fuel = none := by
  simp only [outcome, plan_run hfile hargs h hrun, Option.getD_none, hgoes]

/-- The streams of a run that has been answered, and its code. -/
theorem outcome_of_run (hrun : command = .run) {bytes : List UInt8} {fuel : Nat}
    {r : Except RunError Nat} {m : Machine}
    (hr : p.run fuel { input := .ofBytes bytes } = some (r, m)) :
    ∃ o, outcome file (.ofBytes bytes) args fuel = some o ∧ o.stdout = m.host.output.text ∧
      (∀ status, r = .ok status →
        status ≤ 9 ∧ o.code = status ∧ o.stderr = m.host.diagnostics.text) ∧
      ∀ e, r = .error e → (52 ≤ e.errorClass.code ∧ e.errorClass.code ≤ 58) ∧
        o.code = e.errorClass.code ∧ Text.OneLine e.message ∧
        o.stderr = m.host.diagnostics.text ++ "error: " ++ e.message ++ "\n" := by
  obtain ⟨why, hstop, rfl⟩ := Machine.run_eq_some_iff.mp hr
  obtain ⟨hobliging, hstatus, herror⟩ :=
    Program.stop_of_ofSource h (Host.obliging_ofBytes bytes) hstop
  have hconclude := Machine.conclude_of_obliging hobliging why
  refine ⟨_, outcome_of_stopped hfile hargs h hrun hstop, ?_⟩
  unfold Outcome.ofRun
  rw [hconclude]
  cases hwhy : why.status with
  | ok status =>
    refine ⟨rfl, fun status' heq => ?_, fun e heq => (by cases heq)⟩
    cases heq
    exact ⟨hstatus status hwhy, rfl, rfl⟩
  | error e =>
    refine ⟨rfl, fun status heq => (by cases heq), fun e' heq => ?_⟩
    cases heq
    obtain ⟨hline, hcode⟩ := herror e hwhy
    refine ⟨hcode, rfl, hline, ?_⟩
    show m.host.diagnostics.text ++ ("error: " ++ e.message ++ "\n") = _
    simp only [String.append_assoc]

theorem outcome_eq_none_iff (hrun : command = .run) (stdin : Input) (fuel : Nat) :
    outcome file stdin args fuel = none ↔ p.run fuel { input := stdin } = none := by
  unfold Program.run
  cases hprogress : (Machine.start { input := stdin }).run p fuel with
  | running m => simp [outcome_of_running hfile hargs h hrun hprogress]
  | stopped why m => simp [outcome_of_stopped hfile hargs h hrun hprogress]

theorem code_of_outcome (hrun : command = .run) {bytes : List UInt8} {fuel : Nat} {o : Outcome}
    (ho : outcome file (.ofBytes bytes) args fuel = some o) :
    o.code ≤ 9 ∨ 52 ≤ o.code ∧ o.code ≤ 58 := by
  cases hr : p.run fuel { input := .ofBytes bytes } with
  | none =>
    rw [(outcome_eq_none_iff hfile hargs h hrun _ fuel).mpr hr] at ho
    cases ho
  | some result =>
    obtain ⟨r, m⟩ := result
    obtain ⟨o', ho', -, hstatus, herror⟩ := outcome_of_run hfile hargs h hrun hr
    cases ho'.symm.trans ho
    cases r with
    | ok status =>
      obtain ⟨hle, hcode, -⟩ := hstatus status rfl
      omega
    | error e =>
      obtain ⟨hbounds, hcode, -⟩ := herror e rfl
      omega

end Answers

/-- A machine that starts on an input has written what its instructions have, and no more. -/
theorem texts_of_run {text : String} {p : Program} (h : Program.ofSource text = .ok p)
    {bytes : List UInt8} {fuel : Nat} {r : Except RunError Nat} {m : Machine}
    (hr : p.run fuel { input := .ofBytes bytes } = some (r, m)) :
    let done := (Machine.start { input := .ofBytes bytes }).history p fuel
    m.host.output.text = String.join (done.map Execution.written) ∧
      m.host.diagnostics.text = String.join (done.map Execution.diagnosed) := by
  intro done
  obtain ⟨nodes, -, hload⟩ := Program.ofSource_eq_ok_iff.mp h
  obtain ⟨why, hstop, -⟩ := Machine.run_eq_some_iff.mp hr
  have haccounts := (Machine.passes_run p fuel (Machine.start { input := .ofBytes bytes })).accounts
    (Program.wellFormed_of_load hload) (Host.obliging_ofBytes bytes)
  rw [hstop] at haccounts
  exact ⟨haccounts.output.trans String.empty_append, haccounts.diagnostics.trans String.empty_append⟩

/-- **What the commands answer about a source.** Its file can be read, and the standard input
holds any bytes. If the source cannot be assembled or loaded, all commands answer with the same
code and the same line of error, whatever the input is, even one that refuses to be read. If it
can, only `run` can fail: it prints what the program has written, and after the diagnostics one
line more if the program ends in an error, with the code of its class. -/
theorem outcome_of_source {file : String → File} {path text : String}
    (hfile : (file path).text = .ok text) {run check listing : List String}
    (hrun : Request.ofArguments run = some (.perform .run path none))
    (hcheck : Request.ofArguments check = some (.perform .check path none))
    (hlisting : Request.ofArguments listing = some (.perform .listing path none))
    (bytes : List UInt8) :
    (∀ fuel o, outcome file (.ofBytes bytes) run fuel = some o →
      (o.code ≤ 9 ∨ o.code = 32 ∨ 52 ≤ o.code ∧ o.code ≤ 58) ∧
      (o.code = 32 ↔ (∃ e, Source.assemble text = .error e) ∨
        ∃ ns e, Source.assemble text = .ok ns ∧ Program.load ns = .error e ∧
          e.errorClass = .structural)) ∧
    (∀ e, Program.ofSource text = .error e →
      ∃ o message, o.stdout = "" ∧ o.stderr = "error: " ++ message ++ "\n" ∧
        Text.OneLine message ∧
        ∀ stdin fuel, ∀ args ∈ [run, check, listing], outcome file stdin args fuel = some o) ∧
    ∀ p, Program.ofSource text = .ok p →
      (∀ stdin fuel, ∃ o o', outcome file stdin check fuel = some o ∧
        outcome file stdin listing fuel = some o' ∧ o.code = 0 ∧ o'.code = 0) ∧
      ∀ fuel, let host : Host := { input := .ofBytes bytes }
        let done := (Machine.start host).history p fuel
        (outcome file host.input run fuel = none ↔ p.run fuel host = none) ∧
        ∀ r m, p.run fuel host = some (r, m) → ∃ o, outcome file host.input run fuel = some o ∧
          o.stdout = m.host.output.text ∧
          m.host.output.text = String.join (done.map Execution.written) ∧
          m.host.diagnostics.text = String.join (done.map Execution.diagnosed) ∧
          (∀ status, r = .ok status →
            o.code = status ∧ o.stderr = m.host.diagnostics.text) ∧
          ∀ e, r = .error e → o.code = e.errorClass.code ∧ Text.OneLine e.message ∧
            o.stderr = m.host.diagnostics.text ++ "error: " ++ e.message ++ "\n" := by
  refine ⟨fun fuel o ho => ?_, fun e he => ?_, fun p hp => ⟨fun stdin fuel => ?_, fun fuel => ?_⟩⟩
  · cases hsource : Program.ofSource text with
    | error e =>
      rw [outcome_of_error hfile hrun hsource] at ho
      cases ho
      obtain ⟨hcode, hiff⟩ := BuildError.code_of_ofSource hsource
      have hrange : e.errorClass.code ≤ 9 ∨ e.errorClass.code = 32 ∨
          52 ≤ e.errorClass.code ∧ e.errorClass.code ≤ 58 := by omega
      exact ⟨hrange, hiff⟩
    | ok p =>
      have hcode := code_of_outcome hfile hrun hsource rfl ho
      exact ⟨by omega, fun h32 => (by omega), fun hfault => absurd hfault (sound_of_ofSource hsource)⟩
  · refine ⟨.failure e.errorClass.code e.message, e.message, rfl, rfl,
      Program.oneLine_of_ofSource he, fun stdin fuel args hargs => ?_⟩
    simp only [List.mem_cons, List.not_mem_nil, or_false] at hargs
    rcases hargs with rfl | rfl | rfl
    · exact outcome_of_error hfile hrun he stdin fuel
    · exact outcome_of_error hfile hcheck he stdin fuel
    · exact outcome_of_error hfile hlisting he stdin fuel
  · obtain ⟨stdout, hanswer⟩ := outcome_check hfile hcheck hp rfl stdin fuel
    exact ⟨_, _, hanswer, outcome_listing hfile hlisting hp rfl stdin fuel, rfl, rfl⟩
  · refine ⟨outcome_eq_none_iff hfile hrun hp rfl _ fuel, fun r m hr => ?_⟩
    obtain ⟨o, ho, hstdout, hstatus, herror⟩ := outcome_of_run hfile hrun hp rfl hr
    obtain ⟨houtput, hdiagnostics⟩ := texts_of_run hp hr
    exact ⟨o, ho, hstdout, houtput, hdiagnostics, fun status heq => (hstatus status heq).2,
      fun e heq => (herror e heq).2⟩

/-- A path like an option, a line feed and a read before a jump to nowhere, and a text that no
command takes. -/
theorem outcome_of_jump_to_nowhere :
    let text := "DEFVAR GF@x\nREAD GF@x int\nWRITE string@a\\010b\nDPRINT GF@x\nJUMP nowhere"
    let file := fun path => File.content (if path = "-p" then text else "JUMP").toUTF8
    (∃ o, outcome file (.ofBytes "7\n".toUTF8.data.toList) ["run", "--", "-p"] 9 = some o ∧
      o.code = 52 ∧ o.stdout = "a\nb" ∧
      o.stderr = "7error: undefined label 'nowhere' at instruction 5\n") ∧
    ∃ o message, o.stdout = "" ∧ o.stderr = "error: " ++ message ++ "\n" ∧ Text.OneLine message ∧
      ∀ stdin fuel, ∀ args ∈ [["run", "q"], ["check", "q"], ["listing", "q"]],
        outcome file stdin args fuel = some o := by
  intro text file
  let bytes := "7\n".toUTF8.data.toList
  have hask : ∀ command : Command,
      Request.ofArguments [command.name, "--", "-p"] = some (.perform command "-p" none) ∧
      Request.ofArguments [command.name, "q"] = some (.perform command "q" none) := by
    intro command
    cases command <;> exact ⟨rfl, rfl⟩
  have htext : (file "-p").text = .ok text := by decide +kernel
  have hother : (file "q").text = .ok "JUMP" := by decide +kernel
  have hruns : (Program.ofSource text).map (fun p =>
      ((p.run 9 { input := .ofBytes bytes }).map Prod.fst,
        ((Machine.start { input := .ofBytes bytes }).history p 9).map Execution.written,
        ((Machine.start { input := .ofBytes bytes }).history p 9).map Execution.diagnosed)) =
      .ok (some (.error ⟨5, .undefinedLabel "nowhere"⟩), ["", "", "a\nb", "", ""],
        ["", "", "", "7", ""]) := by decide +kernel
  have hfails : ∃ e, Program.ofSource "JUMP" = .error e := ⟨_, rfl⟩
  constructor
  · cases hp : Program.ofSource text with
    | error e =>
      rw [hp] at hruns
      cases hruns
    | ok p =>
      simp only [hp, Except.map, Except.ok.injEq, Prod.mk.injEq] at hruns
      obtain ⟨hresult, hwritten, hdiagnosed⟩ := hruns
      obtain ⟨⟨_, m⟩, hrun, rfl⟩ := Option.map_eq_some_iff.mp hresult
      have hanswer := outcome_of_source htext (hask .run).1 (hask .check).1 (hask .listing).1 bytes
      obtain ⟨o, ho, hstdout, houtput, hdiagnostics, -, herror⟩ :=
        ((hanswer.2.2 p hp).2 9).2 _ m hrun
      obtain ⟨hcode, -, hstderr⟩ := herror _ rfl
      refine ⟨o, ho, hcode, ?_, ?_⟩
      · rw [hstdout, houtput, hwritten]
        rfl
      · rw [hstderr, hdiagnostics, hdiagnosed]
        decide +kernel
  · obtain ⟨e, he⟩ := hfails
    exact (outcome_of_source hother (hask .run).2 (hask .check).2 (hask .listing).2 bytes).2.1 e he

end CommandLine

end FrameCode
