import Lox.Proofs.JoinedText
import Lox.Proofs.Recognition
import Lox.Proofs.Rejections

/-!
# Programs in two parts

A program that is given in two inputs, one after the other, runs as it does in one input with a line
break in between. Only the lines of the second part are other ones: they count from the start of the
whole.
-/

namespace Lox

open Lexer (newlines)

/-! ### Whose line it is -/

namespace Mark

/-- A line of something read before: an even number. -/
def kept (l : Nat) : Nat := 2 * l

/-- A line of the program that is about to run: an odd number. -/
def own (l : Nat) : Nat := 2 * l + 1

/-- The line without its mark. -/
def line (m : Nat) : Nat := m / 2

/-- The line when those of the program, and no others, are `k` further down. -/
def moved (k m : Nat) : Nat := if m % 2 = 1 then m / 2 + k else m / 2

theorem line_kept : line ∘ kept = id := by
  funext l
  simp [line, kept]

theorem line_own : line ∘ own = id := by
  funext l
  simp only [Function.comp_apply, line, own, id]
  omega

theorem moved_kept (k : Nat) : moved k ∘ kept = id := by
  funext l
  simp [moved, kept]

theorem moved_own (k : Nat) : moved k ∘ own = (· + k) := by
  funext l
  have hodd : (2 * l + 1) % 2 = 1 := by omega
  simp only [Function.comp_apply, moved, own, hodd, if_true]
  omega

end Mark

/-- A renaming of lines alone. -/
def Renaming.ofLines (f : Nat → Nat) : Renaming := ⟨id, f⟩

open Renaming (ofLines)

/-- The tokens stand on other lines. -/
def Parser.Shift.ofLines (f : Nat → Nat) : Parser.Shift := ⟨Renaming.ofLines f, 0, 0, fun _ _ => rfl⟩

def Machine.relabel (f : Nat → Nat) (m : Machine) : Machine :=
  { m with heap := m.heap.rename (ofLines f) }

theorem Renaming.fixes_ofLines_id (ids : List NodeId) : (ofLines id).Fixes ids :=
  ⟨fun _ _ => rfl, rfl⟩

theorem Heap.rename_rename (q r : Renaming) (h : Heap) :
    (h.rename r).rename q = h.rename (q.comp r) := by
  simp only [Heap.rename, Array.map_map]
  congr 2
  funext f
  simp only [Function.comp_apply, Closure.rename, FunDecl.rename_rename]

theorem Machine.relabel_relabel (f g : Nat → Nat) (m : Machine) :
    (m.relabel g).relabel f = m.relabel (f ∘ g) := by
  simp only [relabel, Heap.rename_rename]
  rfl

theorem Machine.relabel_id (m : Machine) : m.relabel id = m := by
  have h : Closure.rename (ofLines id) = id := by
    funext f
    simp only [Closure.rename, FunDecl.rename_self _ (Renaming.fixes_ofLines_id _), id]
  simp only [relabel, Heap.rename, h, Array.map_id]

theorem Machine.relabel_noteAll (f : Nat → Nat) (m : Machine) (notes : Array (NodeId × Nat)) :
    (m.noteAll notes).relabel f = (m.relabel f).noteAll notes := rfl

theorem Scope.Walk.distances_ofLines (f : Nat → Nat) (w : Scope.Walk) :
    (w.rename (ofLines f)).distances = w.distances :=
  Array.map_id _

theorem Scope.Walk.silent_rename {r : Renaming} {w : Scope.Walk} :
    (w.rename r).errors = #[] ↔ w.errors = #[] := by
  simp [rename]

/-! ### Sources without static errors -/

namespace Source

/-- The source has no error that its lexer, its parser or its scopes could find. -/
def Accepted (source : String) : Prop :=
  ∃ program, (program? source 0).1 = .ok program ∧ (Scope.resolve program).errors = #[]

/-- The ids of its nodes do not matter. -/
theorem accepted_iff {source : String} (first : Nat) :
    Accepted source ↔ ∃ program, (program? source first).1 = .ok program ∧
      (Scope.resolve program).errors = #[] := by
  have hskip := program?_skip first source (Nat.le_refl 0)
  rw [Nat.zero_add] at hskip
  unfold Accepted
  rw [hskip]
  rcases (program? source 0).1 with errors | program
  · simp [Except.map]
  · simp [Except.map, Scope.resolve_renameAll, Scope.Walk.silent_rename]

/-- A source is a program when its tokens are declarations. -/
theorem program?_eq_ok_iff {source : String} {first next : Nat} {program : List Stmt} :
    program? source first = (.ok program, next) ↔
      Lexer.errors (Lexer.scan source) = [] ∧ Grammar.Declarations true first
        (TokenStream.ofList (Lexer.tokens (Lexer.scan source))).ahead program next := by
  by_cases hl : Lexer.errors (Lexer.scan source) = []
  · obtain ⟨body, eof, htokens, hbody, heof, -⟩ := Lexer.scan_joined hl ""
    rw [← Parser.program_eq_ok_iff ?_ heof, htokens,
      TokenStream.ahead_ofList hbody heof]
    · simp only [program?, lexicalErrors, hl, List.map_nil, true_and, htokens]
      rcases Parser.program (body ++ [eof]) first with ⟨errors | program', next'⟩
      · simp
      · simp
    · rw [htokens, TokenStream.ahead_ofList hbody heof]
      exact hbody
  · simp only [hl, false_and, iff_false]
    intro h
    exact hl (parsed_of_program? (congrArg Prod.fst h)).1

end Source

/-! ### Joined sources -/

theorem Token.relabel_ne_eof (f : Nat → Nat) {ts : List Token} (hts : ∀ t ∈ ts, t.kind ≠ .eof) :
    ∀ t ∈ ts.map (Token.relabel f), t.kind ≠ .eof := by
  intro t ht
  obtain ⟨u, hu, rfl⟩ := List.mem_map.1 ht
  exact hts u hu

/-- Tokens and their end marker on other lines. -/
theorem Parser.Shift.ofList_relabel (f : Nat → Nat) {ts : List Token}
    (hts : ∀ t ∈ ts, t.kind ≠ .eof) {eof : Token} (heof : eof.kind = .eof) :
    TokenStream.ofList (ts.map (Token.relabel f) ++ [eof.relabel f]) =
      (Parser.Shift.ofLines f).stream (TokenStream.ofList (ts ++ [eof])) := by
  have hmoved : (eof.relabel f).kind = .eof := heof
  rw [Parser.ofList_append (Token.relabel_ne_eof f hts) hmoved, Parser.ofList_append hts heof]
  rfl

theorem Grammar.Declarations.relabel (f : Nat → Nat) {ts : List Token}
    (hts : ∀ t ∈ ts, t.kind ≠ .eof) {first next : Nat} {ss : List Stmt}
    (h : Declarations true first ts ss next) :
    Declarations true first (ts.map (Token.relabel f)) (Stmt.renameAll (ofLines f) ss) next := by
  let eof : Token := ⟨.eof, "", 0⟩
  have heof : eof.kind = .eof := rfl
  have hmap := Token.relabel_ne_eof f hts
  have htokens := Parser.Shift.ofList_relabel f hts heof
  have hstream := (Parser.Shift.ofLines f).program_stream htokens (Nat.zero_le first)
  rw [(Parser.program_eq_ok_iff hts heof first ss next).2 h] at hstream
  exact (Parser.program_eq_ok_iff hmap (show (eof.relabel f).kind = .eof from rfl) first _ next).1
    hstream

/-- The lines that a source takes when another follows on the next one. -/
def Source.height (source : String) : Nat := newlines source.toList + 1

/-- The programs of two sources make up that of both. -/
theorem Source.program?_joined {source more : String} {first middle next : Nat}
    {program rest : List Stmt} (h : program? source first = (.ok program, middle))
    (hm : program? more middle = (.ok rest, next)) :
    program? (joined source more) first =
      (.ok (program ++ Stmt.renameAll (ofLines (· + height source)) rest), next) := by
  obtain ⟨hl, hd⟩ := program?_eq_ok_iff.1 h
  obtain ⟨hl', hd'⟩ := program?_eq_ok_iff.1 hm
  obtain ⟨herrors, hahead⟩ := Lexer.tokens_joined hl hl'
  obtain ⟨body, eof, htokens, hbody, heof, -⟩ := Lexer.scan_joined hl' ""
  have hts : ∀ t ∈ (TokenStream.ofList (Lexer.tokens (Lexer.scan more))).ahead, t.kind ≠ .eof := by
    rw [htokens, TokenStream.ahead_ofList hbody heof]
    exact hbody
  refine program?_eq_ok_iff.2 ⟨herrors, ?_⟩
  rw [hahead]
  exact hd.append (hd'.relabel _ hts)

/-- What is found in the two parts of a program on its own is found in the whole. -/
theorem Scope.resolve_joined {program rest : List Stmt} (he : (resolve program).errors = #[])
    (he' : (resolve rest).errors = #[]) (f : Nat → Nat) :
    let walk := resolve (program ++ Stmt.renameAll (ofLines f) rest)
    walk.errors = #[] ∧ walk.distances = (resolve program).distances ++ (resolve rest).distances := by
  intro walk
  have hwalk : walk = ((resolve rest).rename (ofLines f)).after (resolve program) := by
    rw [← resolve_renameAll]
    exact resolve_append program _
  have hsilent : ((resolve rest).rename (ofLines f)).errors = #[] := Walk.silent_rename.2 he'
  rw [hwalk]
  refine ⟨?_, ?_⟩
  · show (resolve program).errors ++ ((resolve rest).rename (ofLines f)).errors = #[]
    rw [he, hsilent]
    rfl
  · show (resolve program).distances ++ ((resolve rest).rename (ofLines f)).distances = _
    rw [Walk.distances_ofLines]

theorem Source.accepted_joined {source more : String} (hs : Accepted source)
    (hm : Accepted more) : Accepted (joined source more) := by
  obtain ⟨program, hp, he⟩ := (accepted_iff 0).1 hs
  obtain ⟨rest, hq, he'⟩ := (accepted_iff (program? source 0).2).1 hm
  have hjoined := program?_joined (Prod.ext hp rfl) (Prod.ext hq rfl)
  exact (accepted_iff 0).2
    ⟨_, congrArg Prod.fst hjoined, (Scope.resolve_joined he he' _).1⟩

/-! ### Runs in two parts -/

namespace Exchange

/-- The same ids and lines with a table that tells more. -/
def ofTables {table table' : Std.HashMap NodeId Nat} {known : NodeId → Prop}
    (same : ∀ id, known id → table'[id]? = table[id]?) : Exchange where
  via := ofLines id
  known
  table
  table'
  ground := rfl
  same

/-- Other lines with the same table. -/
def ofLines (f : Nat → Nat) (ground : f 0 = 0) (table : Std.HashMap NodeId Nat) : Exchange where
  via := Renaming.ofLines f
  known _ := True
  table
  table' := table
  ground
  same _ _ := rfl

end Exchange

theorem interpret_append (fuel : Nat) (program rest : List Stmt) :
    interpret fuel (program ++ rest) =
      (interpret fuel program >>= fun _ => interpret fuel rest) :=
  List.forM_append

namespace Session

variable {s : Session}

theorem nextId_perform {α : Type} (act : Exec α) : (s.perform act).2.nextId = s.nextId := by
  unfold perform
  split <;> rfl

theorem perform_bind_error {α β : Type} {act : Exec α} {f : α → Exec β} {failure : Failure}
    (h : (s.perform act).1 = .error failure) :
    s.perform (act >>= f) = (.error failure, (s.perform act).2) := by
  unfold perform at h ⊢
  simp only [Bind.bind, EStateM.bind]
  rcases ha : act s.machine with ⟨a, m⟩ | ⟨stop, m⟩ <;> rw [ha] at h
  · cases h
  · cases h
    rfl

theorem perform_bind_ok {α β : Type} {act : Exec α} {f : α → Exec β} {a : α}
    (h : (s.perform act).1 = .ok a) :
    s.perform (act >>= f) = (s.perform act).2.perform (f a) := by
  unfold perform at h ⊢
  simp only [Bind.bind, EStateM.bind]
  rcases ha : act s.machine with ⟨b, m⟩ | ⟨stop, m⟩ <;> rw [ha] at h
  · cases h
    rfl
  · cases h

theorem run_of_accepted {fuel next : Nat} {source : String} {program : List Stmt}
    (h : Source.program? source s.nextId = (.ok program, next))
    (he : (Scope.resolve program).errors = #[]) :
    s.run fuel source =
      perform ⟨s.machine.noteAll (Scope.resolve program).distances, next⟩
        (interpret fuel program) := by
  rw [run_of_program (congrArg Prod.fst h), h, resolved_of_silent he]

/-- Runs a program with its own lines marked, in a session where all lines are marked as kept. -/
def runMarked (fuel : Nat) (source : String) (s : Session) : Except Failure Unit × Session :=
  let (parsed, nextId) := Source.program? source s.nextId
  let s : Session := ⟨s.machine.relabel Mark.kept, nextId⟩
  match parsed with
  | .error errors => (.error (.rejected errors), s)
  | .ok program =>
    let program := Stmt.renameAll (ofLines Mark.own) program
    s.resolved (Scope.resolve program) (interpret fuel program)

def relabel (f : Nat → Nat) (s : Session) : Session := { s with machine := s.machine.relabel f }

theorem runMarked_of_accepted (fuel : Nat) {next : Nat} {source : String} {program : List Stmt}
    (h : Source.program? source s.nextId = (.ok program, next))
    (he : (Scope.resolve program).errors = #[]) :
    s.runMarked fuel source =
      perform ⟨(s.machine.relabel Mark.kept).noteAll (Scope.resolve program).distances, next⟩
        (interpret fuel (Stmt.renameAll (ofLines Mark.own) program)) := by
  have he' := Scope.Walk.silent_rename (r := ofLines Mark.own).2 he
  simp only [runMarked, h, Scope.resolve_renameAll, resolved_of_silent he',
    Scope.Walk.distances_ofLines]

/-- A program on other lines runs as the marked one does, and what was printed before stays. -/
theorem perform_of_runMarked {f : Nat → Nat} (hf : f ∘ Mark.kept = id) (fuel : Nat) {next : Nat}
    {source : String} {program : List Stmt}
    (h : Source.program? source s.nextId = (.ok program, next))
    (he : (Scope.resolve program).errors = #[]) :
    perform ⟨s.machine.noteAll (Scope.resolve program).distances, next⟩
        (interpret fuel (Stmt.renameAll (ofLines (f ∘ Mark.own)) program)) =
      ((s.runMarked fuel source).1.mapError (Failure.relabel f),
        (s.runMarked fuel source).2.relabel f) ∧
    s.printed.toList <+: (s.runMarked fuel source).2.printed.toList := by
  let notes := (Scope.resolve program).distances
  let marked := (s.machine.relabel Mark.kept).noteAll notes
  let x := Exchange.ofLines f (congrFun hf 0) marked.distances
  let p : x.runs.Pair := ⟨marked, rfl, fun _ _ _ _ => trivial⟩
  have hp : x.other p.1 = s.machine.noteAll notes := by
    show (marked.relabel f) = _
    rw [Machine.relabel_noteAll, Machine.relabel_relabel, hf, Machine.relabel_id]
  have hr := Exchange.runs_interpret (p := p) fuel (Stmt.renameAll (ofLines Mark.own) program)
    fun _ _ => trivial
  rw [Stmt.renameAll_renameAll] at hr
  obtain ⟨q, hq, hleft, hright⟩ := perform_exchange hr next next
  rw [hp] at hright
  have hother : x.other q.1 = q.1.relabel f := by
    show { q.1.relabel f with distances := x.table } = _
    rw [← q.2.table]
    rfl
  have hmarked := runMarked_of_accepted fuel h he
  have hsecond : (s.runMarked fuel source).2 = ⟨q.1, next⟩ := by
    rw [hmarked]
    exact hleft
  refine ⟨?_, ?_⟩
  · refine hright.trans ?_
    rw [hsecond, hmarked, hother]
    rfl
  · rw [hsecond]
    exact hq

/-- A program runs as it does when the table tells more. The table stays, as does what was printed
before. -/
theorem perform_of_larger (fuel next next' : Nat) {program : List Stmt} {m : Machine}
    {distances : Std.HashMap NodeId Nat} {known : NodeId → Prop}
    (hm : ∀ f ∈ m.heap.closures, ∀ id ∈ f.decl.ids, known id)
    (hp : ∀ id ∈ Stmt.idsAll program, known id)
    (same : ∀ id, known id → distances[id]? = m.distances[id]?) :
    let run := perform ⟨m, next⟩ (interpret fuel program)
    perform ⟨{ m with distances }, next'⟩ (interpret fuel program) =
        (run.1, ⟨{ run.2.machine with distances }, next'⟩) ∧
      run.2.machine.distances = m.distances ∧
      m.sink.lines.toList <+: run.2.printed.toList := by
  let x := Exchange.ofTables same
  have hself : ∀ m : Machine, x.other m = { m with distances } := fun m => by
    show { m.relabel id with distances } = _
    rw [Machine.relabel_id]
  have hvia : Stmt.renameAll x.via program = program :=
    Stmt.renameAll_self program (Renaming.fixes_ofLines_id _)
  have hr := Exchange.runs_interpret (x := x) (p := ⟨m, rfl, hm⟩) fuel program hp
  rw [hvia] at hr
  obtain ⟨q, hq, hleft, hright⟩ := perform_exchange hr next next'
  simp only [hself] at hright
  intro run
  have hrun : run.2 = ⟨q.1, next⟩ := hleft
  refine ⟨?_, ?_, ?_⟩
  · rw [hright, hrun]
    exact congrArg (·, _) (Failure.mapError_relabel_id _)
  · rw [hrun]
    exact q.2.table
  · rw [hrun]
    exact hq

/-- Distances of a tree whose ids come later say nothing of those from before. -/
theorem noteAll_of_later {program : List Stmt} {first next : Nat}
    (hids : Within first next (Stmt.idsAll program)) (m : Machine) {id : NodeId}
    (hi : id.index < first) :
    (m.noteAll (Scope.resolve program).distances).distances[id]? = m.distances[id]? := by
  obtain ⟨notes, hnotes, hn⟩ := Scope.Walk.Notes.of_start (Stmt.notesAll program .start)
  rw [Scope.resolve, hnotes]
  refine Machine.distances_noteAll_of_ne (fun note hnote => ?_) m
  rintro rfl
  exact absurd (hids.2 _ (hn note hnote)).1 (Nat.not_le.2 hi)

/-- The part that comes second runs as its marked program does. -/
theorem run_of_runMarked {source : String} {program : List Stmt} {next : Nat}
    (h : Source.program? source s.nextId = (.ok program, next))
    (he : (Scope.resolve program).errors = #[]) (fuel : Nat) :
    s.run fuel source = ((s.runMarked fuel source).1.mapError (Failure.relabel Mark.line),
        (s.runMarked fuel source).2.relabel Mark.line) ∧
      s.printed.toList <+: (s.runMarked fuel source).2.printed.toList := by
  have hown : Stmt.renameAll (ofLines (Mark.line ∘ Mark.own)) program = program := by
    rw [Mark.line_own]
    exact Stmt.renameAll_self program (Renaming.fixes_ofLines_id _)
  have hmarked := perform_of_runMarked Mark.line_kept fuel h he
  rwa [hown, ← run_of_accepted h he] at hmarked

section Parts

variable {source more : String} {program rest : List Stmt} {middle next : Nat}

/-- One input runs its two parts in a machine that knows the distances of both. -/
theorem run_joined_eq (hp : Source.program? source s.nextId = (.ok program, middle))
    (hq : Source.program? more middle = (.ok rest, next))
    (he : (Scope.resolve program).errors = #[]) (he' : (Scope.resolve rest).errors = #[])
    (fuel : Nat) :
    s.run fuel (joined source more) =
      perform ⟨(s.machine.noteAll (Scope.resolve program).distances).noteAll
          (Scope.resolve rest).distances, next⟩
        (interpret fuel program >>= fun _ =>
          interpret fuel (Stmt.renameAll (ofLines (· + Source.height source)) rest)) := by
  obtain ⟨herrors, hdistances⟩ := Scope.resolve_joined he he' (· + Source.height source)
  rw [run_of_accepted (Source.program?_joined hp hq) herrors, hdistances, Machine.noteAll_append,
    interpret_append]

/-- The first part does not ask for the distances of the second one. -/
theorem Reached.perform_first {held : List Value} (h : Reached s held)
    (hp : Source.program? source s.nextId = (.ok program, middle))
    (hq : Source.program? more middle = (.ok rest, next))
    (he : (Scope.resolve program).errors = #[]) (fuel : Nat) :
    let m := s.machine.noteAll (Scope.resolve program).distances
    let distances := (m.noteAll (Scope.resolve rest).distances).distances
    let first := s.run fuel source
    perform ⟨{ m with distances }, next⟩ (interpret fuel program) =
        (first.1, ⟨{ first.2.machine with distances }, next⟩) ∧
      first.2.nextId = middle ∧
      first.2.machine.noteAll (Scope.resolve rest).distances =
        { first.2.machine with distances } ∧
      s.printed.toList <+: first.2.printed.toList := by
  intro m distances first
  obtain ⟨hn, hmade⟩ := Source.program?_made source s.nextId
  rw [hp] at hn hmade
  obtain ⟨-, hids⟩ := hmade program rfl
  obtain ⟨-, hids'⟩ := (Source.program?_made more middle).2 rest (congrArg Prod.fst hq)
  have hclosures : ∀ f ∈ m.heap.closures, ∀ id ∈ f.decl.ids, id.index < middle :=
    fun f hf id hi => (h.tidy.covers f hf id hi).trans_le hn
  obtain ⟨hlarger, htable, hprinted⟩ := perform_of_larger fuel middle next hclosures
    (fun id hi => (hids.2 id hi).2) fun id hi => noteAll_of_later hids' m hi
  have hfirst : first = perform ⟨m, middle⟩ (interpret fuel program) := run_of_accepted hp he
  rw [← hfirst] at hlarger htable hprinted
  refine ⟨hlarger, by rw [hfirst, nextId_perform], ?_, hprinted⟩
  simp only [Machine.noteAll, htable]
  rfl

end Parts

/-- A program in two parts, one an input after the other, runs as it does in one input with a line
break in between. When the first part fails, so does the whole, and only the table of distances is
another. Otherwise the whole ends as the second part does after the first one and leaves the same
behind; what comes from the second part, and nothing else, stands that many lines further down. -/
theorem Reached.run_joined {held : List Value} (h : Reached s held) {source more : String}
    (hs : Source.Accepted source) (hm : Source.Accepted more) (fuel : Nat) :
    let first := s.run fuel source
    let second := first.2.run fuel more
    let marked := first.2.runMarked fuel more
    let whole := s.run fuel (joined source more)
    let down := Mark.moved (Source.height source)
    Source.Accepted (joined source more) ∧
    (∀ failure, first.1 = .error failure → whole.1 = .error failure ∧
      ∃ distances, whole.2.machine = { first.2.machine with distances }) ∧
    (first.1 = .ok () →
      second = (marked.1.mapError (Failure.relabel Mark.line), marked.2.relabel Mark.line) ∧
      whole = (marked.1.mapError (Failure.relabel down), marked.2.relabel down) ∧
      ∃ lines lines', first.2.printed.toList = s.printed.toList ++ lines ∧
        second.2.printed.toList = first.2.printed.toList ++ lines' ∧
        whole.2.printed.toList = s.printed.toList ++ (lines ++ lines')) := by
  intro first second marked whole down
  obtain ⟨program, hp, he⟩ := (Source.accepted_iff s.nextId).1 hs
  obtain ⟨middle, hp⟩ : ∃ middle, Source.program? source s.nextId = (.ok program, middle) :=
    ⟨_, Prod.ext hp rfl⟩
  obtain ⟨rest, hq, he'⟩ := (Source.accepted_iff middle).1 hm
  obtain ⟨next, hq⟩ : ∃ next, Source.program? more middle = (.ok rest, next) :=
    ⟨_, Prod.ext hq rfl⟩
  obtain ⟨hlarger, hnext, hmachine, lines, hlines⟩ := h.perform_first hp hq he fuel
  have hwhole : whole = _ := run_joined_eq hp hq he he' fuel
  refine ⟨Source.accepted_joined hs hm, ?_, ?_⟩
  · intro failure hfailure
    have hends := (congrArg Prod.fst hlarger).trans hfailure
    have hwhole := hwhole.trans ((perform_bind_error hends).trans
      (congrArg (Except.error failure, Prod.snd ·) hlarger))
    rw [hwhole]
    exact ⟨rfl, _, rfl⟩
  · intro hok
    have hends := (congrArg Prod.fst hlarger).trans hok
    have hq' : Source.program? more first.2.nextId = (.ok rest, next) := hnext ▸ hq
    obtain ⟨hsecond, lines', hlines'⟩ := run_of_runMarked hq' he' fuel
    obtain ⟨hrest, -⟩ := perform_of_runMarked (Mark.moved_kept (Source.height source)) fuel hq' he'
    rw [Mark.moved_own, hmachine] at hrest
    have hwhole := hwhole.trans ((perform_bind_ok hends).trans
      ((congrArg (fun o => perform o.2 _) hlarger).trans hrest))
    have hprinted : second.2.printed.toList = first.2.printed.toList ++ lines' := by
      rw [show second = _ from hsecond]
      exact hlines'.symm
    refine ⟨hsecond, hwhole, lines, lines', hlines.symm, hprinted, ?_⟩
    rw [hwhole, ← List.append_assoc, show s.printed.toList ++ lines = _ from hlines]
    exact hlines'.symm

/-- A function of the first part is called from the second one. An error inside it stays on its line,
one of the argument moves down by three lines. -/
theorem run_joined_argument :
    let source := "fun f(n) \x7b\n  return n.x;\n\x7d"
    let s := start (fun _ => 0) none
    Reached s [] ∧ Source.Accepted source ∧ Source.Accepted "\nf(f);" ∧
      Source.Accepted "\nf(nope);" ∧
      (s.run 9 (joined source "\nf(f);")).1 =
        .error (.stopped (.error ⟨.readsNoInstance, 2⟩)) ∧
      (s.run 9 (joined source "\nf(nope);")).1 =
        .error (.stopped (.error ⟨.undefinedVariable "nope", 5⟩)) := by
  intro source s
  let name (text : String) (line : Nat) : Token := ⟨.identifier, text, line⟩
  have hreached : Reached s [] := .start _ _
  have hs : Source.Accepted source :=
    ⟨[.function ⟨name "f" 1, [name "n" 1], [.return ⟨.keyword .return, "return", 2⟩
      (some (.get (.variable ⟨0⟩ (name "n" 2)) (name "x" 2)))]⟩], by cbv, by decide⟩
  have hinside : Source.Accepted "\nf(f);" :=
    ⟨[.expression (.call (.variable ⟨0⟩ (name "f" 2)) ⟨.punct .rightParen, ")", 2⟩
      [.variable ⟨1⟩ (name "f" 2)])], by cbv, by decide⟩
  have houtside : Source.Accepted "\nf(nope);" :=
    ⟨[.expression (.call (.variable ⟨0⟩ (name "f" 2)) ⟨.punct .rightParen, ")", 2⟩
      [.variable ⟨1⟩ (name "nope" 2)])], by cbv, by decide⟩
  have hheight : Source.height source = 3 := by
    simp only [source]
    cbv
  have hfirst : (s.run 9 source).1 = .ok () := by
    simp only [source, s]
    cbv
  have hline : ((s.run 9 source).2.runMarked 9 "\nf(f);").1 =
      .error (.stopped (.error ⟨.readsNoInstance, 4⟩)) := by
    simp only [source, s]
    cbv
  have hline' : ((s.run 9 source).2.runMarked 9 "\nf(nope);").1 =
      .error (.stopped (.error ⟨.undefinedVariable "nope", 5⟩)) := by
    simp only [source, s]
    cbv
  have hwhole := ((hreached.run_joined hs hinside 9).2.2 hfirst).2.1
  have hwhole' := ((hreached.run_joined hs houtside 9).2.2 hfirst).2.1
  refine ⟨hreached, hs, hinside, houtside, ?_, ?_⟩
  · rw [hwhole, hline, hheight]
    rfl
  · rw [hwhole', hline', hheight]
    rfl

end Session

end Lox
