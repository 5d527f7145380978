import LicenseNotice.Proofs.FileSystem.Session

/-! # What a notice command leaves behind

A notice command either fails at one of its steps, with nothing printed and no file touched, or it
has its whole report before it prints or writes any of it. The report does not depend on where it
goes.
-/

namespace LicenseNotice.FileSystem

set_option autoImplicit false

open Command (runNotice report deliver)
open Session (OnlyReads act_bind onlyReads_loadConfig onlyReads_loadGraph)

section Stages

variable (fs : FileSystem) (configPath : Option String) (request : NoticeRequest)

/-- The configuration is there, and the options go with the format. -/
def Configured (config : Config) (warnings : List Warning) : Prop :=
  fs.load [] (Config.load configPath) = (.ok config, warnings) ∧
    ¬ (request.reportFormat config = .json ∧ request.hasTextOptions)

/-- The graph is there as well, all its manifests read and merged. -/
def Gathered (config : Config) (graph : Graph) (warnings : List Warning) : Prop :=
  ∃ before, fs.Configured configPath request config before ∧
    fs.load before (Graph.load request.graph) = (.ok graph, warnings)

/-- The report is made. -/
def Reports (content : String) (warnings : List Warning) : Prop :=
  ∃ config graph before, fs.Gathered configPath request config graph before ∧
    fs.load before (report request config graph) = (.ok content, warnings)

/-- The ways for a notice command to fail before its output, in the order of its steps. -/
inductive NoticeFails : Failure → List Warning → Prop
  | configuration {failure warnings} :
      fs.load [] (Config.load configPath) = (.error failure, warnings) →
      NoticeFails failure warnings
  | options {config warnings} :
      fs.load [] (Config.load configPath) = (.ok config, warnings) →
      request.reportFormat config = .json → request.hasTextOptions →
      NoticeFails .textOptionsOnly warnings
  | graph {config before failure warnings} : fs.Configured configPath request config before →
      fs.load before (Graph.load request.graph) = (.error failure, warnings) →
      NoticeFails failure warnings
  | resolution {config graph cause warnings} :
      fs.Gathered configPath request config graph warnings →
      graph.sections request.roots = .error cause →
      NoticeFails (.unresolved request.roots cause) warnings
  | texts {config graph sections before failure warnings} :
      fs.Gathered configPath request config graph before →
      graph.sections request.roots = .ok sections → request.reportFormat config = .text →
      fs.load before (Command.loadTexts (request.textRoot.or config.textRoot) sections) =
        (.error failure, warnings) →
      NoticeFails failure warnings

end Stages

variable {fs : FileSystem} {configPath : Option String} {request : NoticeRequest} {config : Config}
  {graph : Graph} {failure : Failure} {content : String} {before warnings later : List Warning}

theorem load_report_eq_error :
    fs.load before (report request config graph) = (.error failure, warnings) ↔
      (∃ cause, graph.sections request.roots = .error cause ∧
        failure = .unresolved request.roots cause ∧ warnings = before) ∨
      ∃ sections, graph.sections request.roots = .ok sections ∧
        request.reportFormat config = .text ∧
        fs.load before (Command.loadTexts (request.textRoot.or config.textRoot) sections) =
          (.error failure, warnings) := by
  rw [report]
  cases graph.sections request.roots with
  | error cause => simp [load_throw, eq_comm]
  | ok sections =>
    cases request.reportFormat config with
    | json => simp [load_pure]
    | text =>
      dsimp only
      rw [load_bind_eq_error]
      constructor
      · rintro (htexts | ⟨_, _, _, hrendered⟩)
        · exact .inr ⟨sections, rfl, rfl, htexts⟩
        · cases hrendered
      · rintro (⟨_, ⟨⟩, _⟩ | ⟨_, ⟨⟩, _, htexts⟩)
        exact .inl htexts

/-- A notice command fails before its output, or it has its report. -/
theorem fails_or_reports (fs : FileSystem) (configPath : Option String) (request : NoticeRequest) :
    (∃ failure warnings, fs.NoticeFails configPath request failure warnings) ∨
      ∃ content warnings, fs.Reports configPath request content warnings := by
  match hconfig : fs.load [] (Config.load configPath) with
  | (.error failure, warnings) => exact .inl ⟨failure, warnings, .configuration hconfig⟩
  | (.ok config, before) =>
    by_cases hoptions : request.reportFormat config = .json ∧ request.hasTextOptions
    · exact .inl ⟨_, before, .options hconfig hoptions.1 hoptions.2⟩
    have hconfigured : fs.Configured configPath request config before := ⟨hconfig, hoptions⟩
    match hgraph : fs.load before (Graph.load request.graph) with
    | (.error failure, warnings) => exact .inl ⟨failure, warnings, .graph hconfigured hgraph⟩
    | (.ok graph, between) =>
      have hgathered : fs.Gathered configPath request config graph between :=
        ⟨before, hconfigured, hgraph⟩
      match hreport : fs.load between (report request config graph) with
      | (.ok content, warnings) =>
        exact .inr ⟨content, warnings, config, graph, between, hgathered, hreport⟩
      | (.error failure, warnings) =>
        refine .inl ⟨failure, warnings, ?_⟩
        obtain ⟨cause, hsections, rfl, rfl⟩ | ⟨sections, hsections, hformat, htexts⟩ :=
          load_report_eq_error.mp hreport
        · exact .resolution hgathered hsections
        · exact .texts hgathered hsections hformat htexts

/-- Where the report goes has no part in whether it can be made, and how. -/
theorem NoticeFails.of_output (h : fs.NoticeFails configPath request failure warnings)
    (output : Option String) :
    fs.NoticeFails configPath { request with output } failure warnings := by
  cases h with
  | configuration hconfig => exact .configuration hconfig
  | options hconfig hformat hoptions => exact .options hconfig hformat hoptions
  | graph hconfigured hgraph => exact .graph hconfigured hgraph
  | resolution hgathered hsections => exact .resolution hgathered hsections
  | texts hgathered hsections hformat htexts => exact .texts hgathered hsections hformat htexts

theorem Reports.of_output (h : fs.Reports configPath request content warnings)
    (output : Option String) : fs.Reports configPath { request with output } content warnings := h

section Session

variable {session : Session}

theorem onlyReads_report (request : NoticeRequest) (config : Config) (graph : Graph) :
    OnlyReads (report request config graph) (report request config graph) := by
  rw [report, report]
  cases graph.sections request.roots with
  | error cause => exact .throw _
  | ok sections =>
    dsimp only
    cases request.reportFormat config with
    | json => exact .pure _
    | text =>
      refine .bind ?_ fun texts => .pure _
      cases request.textRoot.or config.textRoot with
      | none => exact .pure _
      | some root => exact Session.onlyReads_loadTexts root sections

theorem act_runNotice_of_configured
    (h : session.files.Configured configPath request config before) :
    session.act [] (runNotice configPath request) =
      session.act before (do
        let graph ← Graph.load request.graph
        let content ← report request config graph
        deliver request.output content) := by
  rw [runNotice, act_bind, onlyReads_loadConfig, h.1]
  dsimp only
  rw [if_neg h.2]

theorem act_runNotice_of_gathered
    (h : session.files.Gathered configPath request config graph before) :
    session.act [] (runNotice configPath request) =
      session.act before (do
        let content ← report request config graph
        deliver request.output content) := by
  obtain ⟨_, hconfigured, hgraph⟩ := h
  rw [act_runNotice_of_configured hconfigured, act_bind, onlyReads_loadGraph, hgraph]

/-- With its report made, a command has done nothing yet but to read. -/
theorem act_runNotice_of_reports (session : Session)
    (h : session.files.Reports configPath request content warnings) :
    session.act [] (runNotice configPath request) =
      session.act warnings (deliver request.output content) := by
  obtain ⟨config, graph, before, hgathered, hreport⟩ := h
  rw [act_runNotice_of_gathered hgathered, act_bind, onlyReads_report, hreport]

theorem act_runNotice_of_refused
    (hgathered : session.files.Gathered configPath request config graph before)
    (hreport : session.files.load before (report request config graph) = (.error failure, warnings)) :
    session.act [] (runNotice configPath request) = ((.error failure, warnings), session) := by
  rw [act_runNotice_of_gathered hgathered, act_bind, onlyReads_report, hreport]

/-- A command that fails before its output has done nothing but to read. -/
theorem act_runNotice_of_fails (session : Session)
    (h : session.files.NoticeFails configPath request failure warnings) :
    session.act [] (runNotice configPath request) = ((.error failure, warnings), session) := by
  cases h with
  | configuration hconfig => rw [runNotice, act_bind, onlyReads_loadConfig, hconfig]
  | options hconfig hformat hoptions =>
    rw [runNotice, act_bind, onlyReads_loadConfig, hconfig]
    dsimp only
    rw [if_pos ⟨hformat, hoptions⟩]
    rfl
  | graph hconfigured hgraph =>
    rw [act_runNotice_of_configured hconfigured, act_bind, onlyReads_loadGraph, hgraph]
  | resolution hgathered hsections =>
    refine act_runNotice_of_refused hgathered (load_report_eq_error.mpr (.inl ?_))
    exact ⟨_, hsections, rfl, rfl⟩
  | texts hgathered hsections hformat htexts =>
    refine act_runNotice_of_refused hgathered (load_report_eq_error.mpr (.inr ?_))
    exact ⟨_, hsections, hformat, htexts⟩

theorem act_print (content : String) : session.act warnings (deliver none content) =
    ((.ok (), warnings), { session with printed := session.printed ++ content }) := rfl

theorem act_write (path content : String) : session.act warnings (deliver (some path) content) =
    (((session.files.write path content).1.mapError (.outputUnwritable path), warnings),
      { session with files := (session.files.write path content).2 }) := by
  have hask : session.act warnings (Loading.ask (Console.write path content)) =
      ((.ok (session.files.write path content).1, warnings),
        { session with files := (session.files.write path content).2 }) := rfl
  rw [deliver, Loading.writeFile, act_bind, hask]
  cases (session.files.write path content).1 <;> rfl

end Session

section Runs

variable (quiet : Bool)

theorem run_of_fails (h : fs.NoticeFails configPath request failure warnings) :
    fs.run ⟨quiet, configPath, .notice request⟩ =
      (.ofResult quiet "" warnings (.error failure), fs) := by
  rw [run, Command.run, act_runNotice_of_fails { files := fs } h]

theorem run_of_reports_print (h : fs.Reports configPath request content warnings)
    (houtput : request.output = none) : fs.run ⟨quiet, configPath, .notice request⟩ =
      (.ofResult quiet content warnings (.ok ()), fs) := by
  rw [run, Command.run, act_runNotice_of_reports { files := fs } h, houtput, act_print,
    String.empty_append]

theorem run_of_reports_write {path : String} (h : fs.Reports configPath request content warnings)
    (houtput : request.output = some path) : fs.run ⟨quiet, configPath, .notice request⟩ =
      (.ofResult quiet "" warnings ((fs.write path content).1.mapError (.outputUnwritable path)),
        (fs.write path content).2) := by
  rw [run, Command.run, act_runNotice_of_reports { files := fs } h, houtput, act_write]

theorem Reports.not_fails (h : fs.Reports configPath request content warnings) :
    ¬ fs.NoticeFails configPath request failure later := by
  intro hfails
  have hreported := act_runNotice_of_reports { files := fs } (h.of_output none)
  cases hreported.symm.trans (act_runNotice_of_fails { files := fs } (hfails.of_output none))

/-- A notice command that fails before its output prints nothing and leaves the files as they were.
One that fails later could not write its report: it prints nothing, and if any file differs, then
that of its path, where a beginning of the report may stand. One that writes its report prints
nothing, and the file of that path, the only one that changes, holds what the same command prints
without an output. -/
theorem runWith_notice {arguments : List String} {quiet : Bool} {outcome plain : Outcome}
    {later same : FileSystem}
    (harguments : Arguments.read arguments = .ok ⟨quiet, configPath, .notice request⟩)
    (hrun : fs.runWith arguments = (outcome, later))
    (hplain : fs.run ⟨quiet, configPath, .notice { request with output := none }⟩ =
      (plain, same)) :
    same = fs ∧ (request.output = none → outcome = plain ∧ later = fs) ∧
    (∀ failure warnings, fs.NoticeFails configPath request failure warnings →
      outcome.exitCode = 1 ∧ outcome.stdout = "" ∧ later = fs ∧ plain = outcome) ∧
    (outcome.exitCode ≠ 0 → outcome.stdout = "" ∧
      ((∃ failure warnings, fs.NoticeFails configPath request failure warnings) ∨
        ∃ path cause, request.output = some path ∧
          fs.write path plain.stdout = (.error cause, later) ∧
          (later = fs ∨ ChangesOnly path fs later ∧
            ∀ part, later.read path = .ok part → part.toList <+: plain.stdout.toList))) ∧
    (∀ path, outcome.exitCode = 0 → request.output = some path →
      outcome.stdout = "" ∧ plain.exitCode = 0 ∧ later.read path = .ok plain.stdout ∧
        ChangesOnly path fs later) := by
  rw [runWith, harguments] at hrun
  dsimp only at hrun
  obtain ⟨failure, warnings, hfails⟩ | ⟨content, warnings, hreports⟩ :=
    fails_or_reports fs configPath request
  · cases (run_of_fails quiet hfails).symm.trans hrun
    cases (run_of_fails quiet (hfails.of_output none)).symm.trans hplain
    refine ⟨rfl, fun _ => ⟨rfl, rfl⟩, fun _ _ _ => ⟨rfl, rfl, rfl, rfl⟩,
      fun _ => ⟨rfl, .inl ⟨failure, warnings, hfails⟩⟩, ?_⟩
    exact fun _ hcode => absurd hcode Nat.one_ne_zero
  · have hnever : ∀ failure warnings, ¬ fs.NoticeFails configPath request failure warnings :=
      fun _ _ => hreports.not_fails
    cases (run_of_reports_print quiet (hreports.of_output none) rfl).symm.trans hplain
    cases houtput : request.output with
    | none =>
      cases (run_of_reports_print quiet hreports houtput).symm.trans hrun
      exact ⟨rfl, fun _ => ⟨rfl, rfl⟩, fun _ _ hfails => absurd hfails (hnever _ _),
        fun hcode => absurd rfl hcode, nofun⟩
    | some path =>
      have hwritten := (run_of_reports_write quiet hreports houtput).symm.trans hrun
      refine ⟨rfl, nofun, fun _ _ hfails => absurd hfails (hnever _ _), ?_⟩
      match hwrite : fs.write path content with
      | (.error cause, files) =>
        rw [hwrite] at hwritten
        cases hwritten
        refine ⟨fun _ => ⟨rfl, .inr ⟨path, cause, rfl, hwrite, write_failed hwrite⟩⟩, ?_⟩
        exact fun _ hcode => absurd hcode Nat.one_ne_zero
      | (.ok (), files) =>
        rw [hwrite] at hwritten
        cases hwritten
        refine ⟨fun hcode => absurd rfl hcode, ?_⟩
        rintro _ _ ⟨⟩
        obtain ⟨hread, hchanges⟩ := write_spec hwrite
        exact ⟨rfl, rfl, hread, hchanges⟩

def buildDirectory : FileSystem where
  workingDirectory := ["build"]
  entries :=
    [(["build"], .directory none),
     (["build", "graph.toml"], .file
       ("[[target]]\nid = \"app\"\nkind = \"leaf\"\ninstall_name = \"app\"\n" ++
        "[[target.conditions]]\ncategory = \"notice\"\n"))]

/-- A directory of libraries does not tell its names. -/
def closedDirectory : FileSystem :=
  buildDirectory.put ["build", "lib"] (.directory (some (.other "Permission denied (os error 13)")))

/-- There is room for ten bytes. -/
def fullDirectory : FileSystem :=
  { buildDirectory with limit := some ⟨10, .other "No space left on device (os error 28)"⟩ }

def requestFrom (graph : String) : NoticeRequest where
  roots := ["app"]
  graph
  output := some "NOTICE"

def argumentsFrom (graph : String) : List String := ["notice", "-g", graph, "-o", "NOTICE", "app"]

theorem runWith_notice_app :
    ((buildDirectory.runWith (argumentsFrom "graph.toml")).1.exitCode = 0 ∧
      (buildDirectory.runWith (argumentsFrom "graph.toml")).1.stdout = "" ∧
      (buildDirectory.runWith (argumentsFrom "graph.toml")).2.read "NOTICE" = .ok (buildDirectory.run
        ⟨false, none, .notice { requestFrom "graph.toml" with output := none }⟩).1.stdout) ∧
    ((closedDirectory.runWith (argumentsFrom ".")).1.exitCode = 1 ∧
      (closedDirectory.runWith (argumentsFrom ".")).1.stdout = "" ∧
      (closedDirectory.runWith (argumentsFrom ".")).2 = closedDirectory) ∧
    (fullDirectory.runWith (argumentsFrom "graph.toml")).1.exitCode = 1 ∧
      (fullDirectory.runWith (argumentsFrom "graph.toml")).1.stdout = "" ∧
      (fullDirectory.runWith (argumentsFrom "graph.toml")).2.read "NOTICE" = .ok "==========" := by
  have hread : ∀ graph ∈ ["graph.toml", "."], Arguments.read (argumentsFrom graph) =
      .ok ⟨false, none, .notice (requestFrom graph)⟩ := by decide +kernel
  have hrun := fun (fs : FileSystem) arguments => (Prod.eta (fs.runWith arguments)).symm
  have hplain := fun (fs : FileSystem) graph => (Prod.eta (fs.run
    ⟨false, none, .notice { requestFrom graph with output := none }⟩)).symm
  have hcode : (buildDirectory.runWith (argumentsFrom "graph.toml")).1.exitCode = 0 := by
    decide +kernel
  obtain ⟨-, -, -, -, hwritten⟩ :=
    runWith_notice (hread "graph.toml" (by decide)) (hrun buildDirectory _) (hplain _ _)
  obtain ⟨hstdout, -, hfile, -⟩ := hwritten "NOTICE" hcode rfl
  have hclosed : closedDirectory.NoticeFails none (requestFrom ".")
      (.unscannable "." "lib" (.other "Permission denied (os error 13)")) [] := by
    have hconfigured : closedDirectory.Configured none (requestFrom ".") .default [] :=
      ⟨by decide +kernel, by decide⟩
    exact .graph hconfigured (by decide +kernel)
  obtain ⟨-, -, hfails, -⟩ :=
    runWith_notice (hread "." (by decide)) (hrun closedDirectory _) (hplain _ _)
  obtain ⟨hcode', hstdout', hsame, -⟩ := hfails _ _ hclosed
  have hfull : (fullDirectory.runWith (argumentsFrom "graph.toml")).1.exitCode = 1 := by
    decide +kernel
  obtain ⟨-, -, -, hstops, -⟩ :=
    runWith_notice (hread "graph.toml" (by decide)) (hrun fullDirectory _) (hplain _ _)
  obtain ⟨hstdout'', -⟩ := hstops (hfull ▸ Nat.one_ne_zero)
  exact ⟨⟨hcode, hstdout, hfile⟩, ⟨hcode', hstdout', hsame⟩, hfull, hstdout'', by decide +kernel⟩

end Runs

end LicenseNotice.FileSystem
