import CodeGraph.Proofs.Cache.Oldest
import CodeGraph.Proofs.Request.Footprint
import CodeGraph.Proofs.Request.Transparency

/-!
# Look-ups by digest

A look-up names a source by its digest, and says nothing of its language: it is answered from the earliest row of any
language, whichever request left it. A `Log` is what an analyzer has answered since its store was cleared. Every row of
the store comes from an answer in the log, and every answered request with a stored result has its row
(`Log.Accounted`), so a look-up finds what the log has. Main statement: `Log.lookUps_run`.
-/

namespace CodeGraph

/-! ### Rows of a digest -/

namespace ResultStore

variable {s : ResultStore} {digest : String} {kind : ResultKind}

theorem find_of_no_row (h : ∀ row ∈ s.rows, row.matchesDigest digest kind = false) :
    s.find digest kind = .ok none :=
  find_eq_none_iff.mpr fun row hrow hmatch =>
    Bool.eq_false_iff.mp (h row hrow) (StoreRow.matchesDigest_eq_true.mpr hmatch)

/-- A look-up finds one of the rows that match. -/
theorem exists_find_of_row {row : StoreRow} (hrow : row ∈ s.rows)
    (hmatch : row.matchesDigest digest kind = true) :
    ∃ found ∈ s.rows, found.matchesDigest digest kind = true ∧ ∀ language : Language,
      found.key.language = language.name →
        s.find digest kind = .ok (some (language, found.payload)) := by
  obtain ⟨hdigest, hkind⟩ := StoreRow.matchesDigest_eq_true.mp hmatch
  obtain ⟨found, hfound⟩ := exists_isOldest hrow hdigest hkind
  refine ⟨found, hfound.mem, StoreRow.matchesDigest_eq_true.mpr ⟨hfound.digest_eq, hfound.kind_eq⟩, ?_⟩
  intro language hlanguage
  exact find_eq_some_iff.mpr ⟨found, hfound, by rw [hlanguage, Language.ofTag?_name], rfl⟩

end ResultStore

theorem StoreRow.matchesDigest_iff {row : StoreRow} {code other : String} {language : Language}
    {kind kind' : ResultKind} (hkey : row.key = .ofSource code language kind) :
    row.matchesDigest (Blake3.textDigest other) kind' = true ↔
      Blake3.textDigest code = Blake3.textDigest other ∧ kind = kind' := by
  rw [matchesDigest, hkey]
  simp only [StoreKey.ofSource, StoreKey.of, Bool.and_eq_true, beq_iff_eq]
  exact and_congr_right fun _ => ⟨ResultKind.name_injective, congrArg ResultKind.name⟩

/-! ### What was answered since the store was cleared -/

/-- What can happen to an analyzer with a store, one after the other. -/
inductive Act where
  /-- A request is answered; `clock n` is the time of its step number `n`. -/
  | request (r : AnyRequest) (clock : Nat → Int)
  /-- All results are removed. -/
  | clear

/-- The request with a stored result that an act is, where it is one. -/
def Act.kept? : Act → Option Request
  | request (.kept q) _ => some q
  | _ => none

/-- The store of an analyzer, and what the analyzer has answered since the store was cleared, newest first. -/
structure Log where
  store : ResultStore
  answered : List (AnyRequest × Except Fault String)

/-- A request leaves a row: under its key, with the text of its result. -/
def Request.Leaves (a : Analyzer) (q : Request) (row : StoreRow) : Prop :=
  ∃ language, a.prepare q.code q.hint = .ok language ∧
    row.key = .ofSource q.code language q.kind ∧
    a.freshText q.code language q.kind = .ok row.payload

namespace Request

variable {a : Analyzer} {q : Request} {service : Nat → Service} {store after : ResultStore}
  {answer : Except Fault String}

/-- A request that adds a row leaves it, and is answered. -/
theorem Goes.leaves_of_mem_rows (h : q.Goes a service store answer after) {row : StoreRow}
    (hrow : row ∈ after.rows) :
    row ∈ store.rows ∨ (∃ text, answer = .ok text) ∧ q.Leaves a row := by
  cases h with
  | unacceptable _ => exact Or.inl hrow
  | found _ _ _ _ text => exact Or.inl hrow
  | failed _ _ => exact Or.inl hrow
  | unwritten _ _ _ text => exact Or.inl hrow
  | written hprepare hfresh _ text =>
    rcases ResultStore.mem_rows_put hrow with hold | rfl
    · exact Or.inl hold
    · exact Or.inr ⟨⟨text, rfl⟩, _, hprepare, rfl, hfresh⟩

/-- Behind an answered request whose write is not refused its key has a row. -/
theorem Goes.exists_get? (h : q.Goes a service store answer after)
    (hserved : ∀ cause, service 2 ≠ .refused cause) {text : String} (hanswer : answer = .ok text) :
    ∃ language payload, a.prepare q.code q.hint = .ok language ∧
      after.get? (.ofSource q.code language q.kind) = some payload := by
  cases h with
  | unacceptable _ => cases hanswer
  | found hprepare _ hget _ _ => exact ⟨_, _, hprepare, hget⟩
  | failed _ _ => cases hanswer
  | unwritten _ _ hrefused _ => exact absurd hrefused (hserved _)
  | written hprepare _ _ _ =>
    obtain ⟨payload, hget⟩ := store.exists_get?_put _ _ _
    exact ⟨_, payload, hprepare, hget⟩

end Request

namespace Log

/-- The log before anything was asked. -/
def start : Log := ⟨∅, []⟩

/-- The log after an act. No access to the store is refused. -/
def step (a : Analyzer) (log : Log) : Act → Log
  | .request r clock =>
    let (answer, store) := (r.plan a).run (fun n => .served (clock n)) log.store
    ⟨store, (r, answer) :: log.answered⟩
  | .clear => ⟨log.store.clear.1, []⟩

/-- The log after some acts. -/
def run (a : Analyzer) (acts : List Act) : Log := acts.foldl (step a) start

/-- The store and the answers account for each other, where only some requests with a stored result were made. -/
structure Accounted (a : Analyzer) (requests : List Request) (log : Log) : Prop where
  /-- Only these requests were answered. -/
  asked : ∀ q answer, (.kept q, answer) ∈ log.answered → q ∈ requests
  /-- Each was answered as it is without a store. -/
  answers : ∀ q answer, (.kept q, answer) ∈ log.answered → answer = (Call.mk a q).answerAlone
  rows : ∀ row ∈ log.store.rows, ∃ q text, (.kept q, .ok text) ∈ log.answered ∧ q.Leaves a row
  leaves : ∀ q text, (.kept q, .ok text) ∈ log.answered → ∃ row ∈ log.store.rows, q.Leaves a row

variable {a : Analyzer} {requests : List Request} {log : Log}

theorem accounted_start : start.Accounted a requests where
  asked _ _ h := nomatch h
  answers _ _ h := nomatch h
  rows _ h := nomatch h
  leaves _ _ h := nomatch h

/-- Digests differ, so a stored payload is the text of every source with its key. -/
theorem Accounted.holds (h : log.Accounted a requests)
    (hdigest : DigestsDiffer (requests.map (·.code))) :
    log.store.Holds (a.Genuine (requests.map (·.code))) := by
  intro key payload hget code hcode language kind hkey
  obtain ⟨row, hrow, rfl, rfl⟩ := ResultStore.get?_eq_some_iff.mp hget
  obtain ⟨q, text, hanswered, language', -, hkey', hfresh⟩ := h.rows row hrow
  obtain ⟨hdig, rfl, rfl⟩ := StoreKey.ofSource_inj (hkey'.symm.trans hkey)
  obtain rfl := hdigest q.code (List.mem_map_of_mem (h.asked q _ hanswered)) code hcode hdig
  exact hfresh

/-- An answer is accounted for where it leaves no row that it does not account for. -/
theorem Accounted.answer (h : log.Accounted a requests) {r : AnyRequest}
    {answer : Except Fault String} {store : ResultStore} (hgrows : log.store.rows ⊆ store.rows)
    (hrows : ∀ row ∈ store.rows, row ∈ log.store.rows ∨
      ∃ q text, r = .kept q ∧ answer = .ok text ∧ q.Leaves a row)
    (hkept : ∀ q, r = .kept q → q ∈ requests ∧ answer = (Call.mk a q).answerAlone ∧
      ∀ text, answer = .ok text → ∃ row ∈ store.rows, q.Leaves a row) :
    (Log.mk store ((r, answer) :: log.answered)).Accounted a requests where
  asked q x hx := by
    rcases List.mem_cons.mp hx with heq | hx
    · exact (hkept q (Prod.mk.inj heq).1.symm).1
    · exact h.asked q x hx
  answers q x hx := by
    rcases List.mem_cons.mp hx with heq | hx
    · obtain ⟨hr, rfl⟩ := Prod.mk.inj heq
      exact (hkept q hr.symm).2.1
    · exact h.answers q x hx
  rows row hrow := by
    rcases hrows row hrow with hold | ⟨q, text, rfl, rfl, hleaves⟩
    · obtain ⟨q, text, hx, hleaves⟩ := h.rows row hold
      exact ⟨q, text, List.mem_cons_of_mem _ hx, hleaves⟩
    · exact ⟨q, text, List.mem_cons_self, hleaves⟩
  leaves q text hx := by
    rcases List.mem_cons.mp hx with heq | hx
    · obtain ⟨hr, hanswer⟩ := Prod.mk.inj heq
      exact (hkept q hr.symm).2.2 text hanswer.symm
    · obtain ⟨row, hrow, hleaves⟩ := h.leaves q text hx
      exact ⟨row, hgrows hrow, hleaves⟩

/-- A request leaves the row of its key. -/
theorem leaves_of_get? {store : ResultStore} {q : Request} (hq : q ∈ requests)
    (hholds : store.Holds (a.Genuine (requests.map (·.code)))) {language : Language}
    (hprepare : a.prepare q.code q.hint = .ok language) {payload : String}
    (hget : store.get? (.ofSource q.code language q.kind) = some payload) :
    ∃ row ∈ store.rows, q.Leaves a row := by
  obtain ⟨row, hrow, hkey, hpayload⟩ := ResultStore.get?_eq_some_iff.mp hget
  have hfresh := hholds _ _ hget q.code (List.mem_map_of_mem hq) language q.kind rfl
  exact ⟨row, hrow, language, hprepare, hkey, hpayload ▸ hfresh⟩

theorem Accounted.kept (h : log.Accounted a requests)
    (hdigest : DigestsDiffer (requests.map (·.code))) {q : Request} (hq : q ∈ requests)
    (clock : Nat → Int) : (log.step a (.request (.kept q) clock)).Accounted a requests := by
  have hcall := (Call.mk a q).keeps_plan hdigest ⟨rfl, rfl, rfl⟩ (List.mem_map_of_mem hq)
  obtain ⟨hanswer, hholds⟩ := hcall.run (h.holds hdigest) fun n => .served (clock n)
  have hgoes := q.goes_run a (fun n => .served (clock n)) log.store
  refine h.answer (r := .kept q) ((q.plan a).suffix_rows_run _ _).subset (fun row hrow => ?_)
    fun p hp => ?_
  · refine (hgoes.leaves_of_mem_rows hrow).imp_right ?_
    rintro ⟨⟨text, htext⟩, hleaves⟩
    exact ⟨q, text, rfl, htext, hleaves⟩
  · obtain rfl := AnyRequest.kept.inj hp
    refine ⟨hq, hanswer, fun text htext => ?_⟩
    obtain ⟨language, payload, hprepare, hget⟩ :=
      hgoes.exists_get? (fun cause hrefused => by cases hrefused) htext
    exact leaves_of_get? hq hholds hprepare hget

/-- Every act keeps the log accounted for. -/
theorem Accounted.step (h : log.Accounted a requests)
    (hdigest : DigestsDiffer (requests.map (·.code))) {act : Act}
    (hact : ∀ q, act.kept? = some q → q ∈ requests) : (log.step a act).Accounted a requests := by
  cases act with
  | clear => exact accounted_start
  | request r clock =>
    by_cases hkept : ∃ q, r = .kept q
    · obtain ⟨q, rfl⟩ := hkept
      exact h.kept hdigest (hact q rfl) clock
    · have hother : ∀ q, r ≠ .kept q := fun q hq => hkept ⟨q, hq⟩
      have hstore := AnyRequest.run_plan_of_not_kept hother a (fun n => .served (clock n)) log.store
      show (Log.mk ((r.plan a).run (fun n => .served (clock n)) log.store).2 _).Accounted a requests
      rw [hstore]
      exact h.answer (List.Subset.refl _) (fun row hrow => Or.inl hrow)
        fun q hq => absurd hq (hother q)

/-- After any acts the store and the answers account for each other. -/
theorem accounted_run {acts : List Act}
    (hdigest : DigestsDiffer ((acts.filterMap Act.kept?).map (·.code))) :
    (run a acts).Accounted a (acts.filterMap Act.kept?) := by
  -- the requests are those of the whole run from the start on
  suffices ∀ (requests : List Request) (log : Log), DigestsDiffer (requests.map (·.code)) →
      acts.filterMap Act.kept? ⊆ requests → log.Accounted a requests →
      (acts.foldl (Log.step a) log).Accounted a requests from
    this _ start hdigest (List.Subset.refl _) accounted_start
  clear hdigest
  intro requests log hdigest hrequests h
  induction acts generalizing log with
  | nil => exact h
  | cons act acts ih =>
    refine ih (log.step a act) (fun q hq => hrequests ?_) (h.step hdigest fun q hq => hrequests ?_)
    · obtain ⟨later, hlater, hkept⟩ := List.mem_filterMap.mp hq
      exact List.mem_filterMap.mpr ⟨later, List.mem_cons_of_mem _ hlater, hkept⟩
    · exact List.mem_filterMap.mpr ⟨act, List.mem_cons_self, hq⟩

end Log

/-! ### What requests give -/

namespace Analyzer

variable {a : Analyzer} {code : String} {language : Language} {kind : ResultKind}

/-- The JSON of the result of a kind, computed anew. -/
def freshJson (a : Analyzer) (code : String) (language : Language) : ResultKind → Except Fault Json
  | .tree => (a.parseFresh code language).map TreeResult.codec.encode
  | .graph => (a.graphFresh code language).map SemanticGraph.codec.encode
  | .outline => (a.outlineFresh code language).map Outline.codec.encode

theorem freshText_eq_map :
    a.freshText code language kind = (a.freshJson code language kind).map Json.compact := by
  cases kind with
  | tree =>
    rw [freshText, freshJson]
    cases a.parseFresh code language <;> rfl
  | graph =>
    rw [freshText, freshJson]
    cases a.graphFresh code language <;> rfl
  | outline =>
    rw [freshText, freshJson]
    cases a.outlineFresh code language <;> rfl

/-- A result is written as an object. -/
theorem freshJson_ne_number {j : Json} (h : a.freshJson code language kind = .ok j) (n : JsonNumber) :
    j ≠ .number n := by
  cases kind with
  | tree =>
    obtain ⟨r, -, rfl⟩ := exists_of_map_eq_ok h
    simp [TreeResult.codec]
  | graph =>
    obtain ⟨g, -, rfl⟩ := exists_of_map_eq_ok h
    simp [SemanticGraph.codec]
  | outline =>
    obtain ⟨o, -, rfl⟩ := exists_of_map_eq_ok h
    simp [Outline.codec]

theorem language_of_parseFresh {r : TreeResult} (h : a.parseFresh code language = .ok r) :
    r.language = language := by
  obtain ⟨p, hp, h⟩ := exists_of_bind_eq_ok h
  obtain ⟨tree, -, rfl⟩ := exists_of_map_eq_ok h
  exact (Parser.parse_eq_ok hp).1

end Analyzer

namespace Request

/-- The request for the result of a kind itself. -/
def forResult : ResultKind → String → SourceHint → Request
  | .tree => parse
  | .graph => graph
  | .outline => outline

end Request

namespace Call

variable {a : Analyzer} {code : String} {hint : SourceHint} {language : Language}

theorem answerAlone_of_prepare {q : Request} (hprepare : a.prepare q.code q.hint = .ok language) :
    (Call.mk a q).answerAlone = ((q.form a).compute language).map (q.form a).answer := by
  rw [answerAlone, plan, Request.answerAlone_plan, hprepare]
  rfl

/-- A request for a result itself is answered with its text. -/
theorem answerAlone_forResult (hprepare : a.prepare code hint = .ok language) (kind : ResultKind) :
    (Call.mk a (.forResult kind code hint)).answerAlone = a.freshText code language kind := by
  cases kind with
  | tree => exact answerAlone_of_prepare (q := .parse code hint) hprepare
  | graph => exact answerAlone_of_prepare (q := .graph code hint) hprepare
  | outline => exact answerAlone_of_prepare (q := .outline code hint) hprepare

end Call

/-! ### What look-ups find -/

namespace Log

/-- The answer of a plan, where no access to the store is refused. -/
def ask {α : Type} (log : Log) (clock : Nat → Int) (plan : Plan α) : Except Fault α :=
  (plan.run (fun n => .served (clock n)) log.store).1

/-- A look-up is answered from what the store finds. -/
theorem ask_lookUp {α : Type} (log : Log) (clock : Nat → Int) (digest : String) (kind : ResultKind)
    (answer : String → Except Fault α) :
    log.ask clock (lookUp digest kind answer) =
      match log.store.find digest kind with
      | .error e => .error e
      | .ok none => .error (.notStored kind digest)
      | .ok (some (_, payload)) => answer payload := rfl

variable {a : Analyzer} {requests : List Request} {log : Log} {code : String} {kind : ResultKind}

/-- Some request with a result of a kind has succeeded on a source. -/
def Succeeded (log : Log) (code : String) (kind : ResultKind) : Prop :=
  ∃ q text, (.kept q, .ok text) ∈ log.answered ∧ q.code = code ∧ q.kind = kind

/-- A request with a result of a kind has succeeded on a source under a language, and every request for the result
itself under that language was answered with a JSON value. -/
structure Gave (log : Log) (a : Analyzer) (code : String) (kind : ResultKind) (language : Language)
    (j : Json) : Prop where
  asked : ∃ q text, (.kept q, .ok text) ∈ log.answered ∧ q.code = code ∧ q.kind = kind ∧
    a.prepare code q.hint = .ok language
  fresh : a.freshJson code language kind = .ok j
  answers : ∀ hint text, (.kept (.forResult kind code hint), .ok text) ∈ log.answered →
    a.prepare code hint = .ok language → text = j.compact

/-- As `Gave`, for the tree of a source, where nodes by position were found in that tree too. -/
structure GaveTree (log : Log) (a : Analyzer) (code : String) (language : Language)
    (r : TreeResult) : Prop extends log.Gave a code .tree language (TreeResult.codec.encode r) where
  tree : a.parseFresh code language = .ok r
  located : ∀ hint p text, (.kept (.locate code p hint), .ok text) ∈ log.answered →
    a.prepare code hint = .ok language → text = LocateResult.codec.write (.of r.tree language p)

theorem Gave.succeeded {language : Language} {j : Json} (h : log.Gave a code kind language j) :
    log.Succeeded code kind := by
  obtain ⟨q, text, hanswered, hcode, hkind, -⟩ := h.asked
  exact ⟨q, text, hanswered, hcode, hkind⟩

theorem Accounted.gaveTree (h : log.Accounted a requests) {language : Language} {j : Json}
    (hgave : log.Gave a code .tree language j) :
    ∃ r, TreeResult.codec.encode r = j ∧ r.language = language ∧ log.GaveTree a code language r := by
  obtain ⟨r, hr, rfl⟩ := exists_of_map_eq_ok hgave.fresh
  have hlanguage := Analyzer.language_of_parseFresh hr
  refine ⟨r, rfl, hlanguage, { hgave with tree := hr, located := fun hint p text hx hprepare => ?_ }⟩
  have hanswer := h.answers _ _ hx
  rw [Call.answerAlone_of_prepare (q := .locate code p hint) hprepare] at hanswer
  obtain ⟨r', hr', rfl⟩ := exists_of_map_eq_ok hanswer.symm
  obtain rfl := Except.ok.inj (hr.symm.trans hr')
  rw [← hlanguage]
  rfl

/-- A row that matches the digest of a source holds what requests on that source gave. -/
theorem Accounted.gave_of_row (h : log.Accounted a requests)
    (hdigest : DigestsDiffer (code :: requests.map (·.code))) {row : StoreRow}
    (hrow : row ∈ log.store.rows)
    (hmatch : row.matchesDigest (Blake3.textDigest code) kind = true) :
    ∃ language j, log.Gave a code kind language j ∧ row.key.language = language.name ∧
      row.payload = j.compact := by
  obtain ⟨q, text, hanswered, language, hprepare, hkey, hfresh⟩ := h.rows row hrow
  obtain ⟨hdig, rfl⟩ := (StoreRow.matchesDigest_iff hkey).mp hmatch
  have hmem : q.code ∈ requests.map (·.code) := List.mem_map_of_mem (h.asked q _ hanswered)
  obtain rfl := hdigest q.code (List.mem_cons_of_mem _ hmem) code List.mem_cons_self hdig
  have hj := hfresh
  rw [Analyzer.freshText_eq_map] at hj
  obtain ⟨j, hj, hpayload⟩ := exists_of_map_eq_ok hj
  have hgave : log.Gave a q.code q.kind language j :=
    { asked := ⟨q, text, hanswered, rfl, rfl, hprepare⟩
      fresh := hj
      answers := fun hint text hx hhint => by
        have hanswer := h.answers _ _ hx
        rw [Call.answerAlone_forResult hhint, hfresh, ← hpayload] at hanswer
        exact Except.ok.inj hanswer }
  exact ⟨language, j, hgave, by rw [hkey]; rfl, hpayload.symm⟩

/-- The store finds nothing where nothing has succeeded, and otherwise what was given. -/
theorem Accounted.find (h : log.Accounted a requests)
    (hdigest : DigestsDiffer (code :: requests.map (·.code))) (kind : ResultKind) :
    (¬ log.Succeeded code kind ∧ log.store.find (Blake3.textDigest code) kind = .ok none) ∨
      ∃ language j, log.Gave a code kind language j ∧
        log.store.find (Blake3.textDigest code) kind = .ok (some (language, j.compact)) := by
  by_cases hsucceeded : log.Succeeded code kind
  · obtain ⟨q, text, hanswered, rfl, rfl⟩ := hsucceeded
    obtain ⟨row, hrow, language, -, hkey, -⟩ := h.leaves q text hanswered
    -- the row of this request need not be the one that is found
    obtain ⟨found, hfound, hmatch, hfind⟩ := ResultStore.exists_find_of_row hrow
      ((StoreRow.matchesDigest_iff hkey).mpr ⟨rfl, rfl⟩)
    obtain ⟨language', j, hgave, hlanguage, hpayload⟩ := h.gave_of_row hdigest hfound hmatch
    exact Or.inr ⟨language', j, hgave, hpayload ▸ hfind language' hlanguage⟩
  · refine Or.inl ⟨hsucceeded, ResultStore.find_of_no_row fun row hrow => ?_⟩
    refine Bool.eq_false_iff.mpr fun hmatch => hsucceeded ?_
    obtain ⟨language, j, hgave, -, -⟩ := h.gave_of_row hdigest hrow hmatch
    exact hgave.succeeded

/-- A stored tree whose counts fit is read back. -/
theorem read_tree {r : TreeResult} (hfits : (TreeResult.codec.encode r).AllFit) :
    ResultStore.read TreeResult.codec (TreeResult.codec.encode r).compact = .ok r.detached := by
  have hread := Codec.read?_write r.reads_codec (by simp [TreeResult.codec])
  rw [if_pos (r.reads_codec.allFit_iff.mp hfits)] at hread
  rw [ResultStore.read, ← Codec.write, hread]

theorem Accounted.storedNode (h : log.Accounted a requests)
    (hdigest : DigestsDiffer (code :: requests.map (·.code)))
    (hfits : ∀ language j, log.Gave a code .tree language j → j.AllFit) (clock : Nat → Int) :
    (¬ log.Succeeded code .tree ∧ ∀ id,
        log.ask clock (storedNode (Blake3.textDigest code) id) =
          .error (.notStored .tree (Blake3.textDigest code))) ∨
      ∃ language r, log.GaveTree a code language r ∧ ∀ id,
        log.ask clock (storedNode (Blake3.textDigest code) id) = .ok (.of r.tree language id) := by
  rcases h.find hdigest .tree with ⟨hnone, hfind⟩ | ⟨language, j, hgave, hfind⟩
  · refine Or.inl ⟨hnone, fun id => ?_⟩
    rw [CodeGraph.storedNode, ask_lookUp, hfind]
  · obtain ⟨r, rfl, rfl, htree⟩ := h.gaveTree hgave
    refine Or.inr ⟨r.language, r, htree, fun id => ?_⟩
    rw [CodeGraph.storedNode, ask_lookUp, hfind]
    simp only [read_tree (hfits _ _ hgave)]
    rfl

theorem Accounted.storedResult (h : log.Accounted a requests)
    (hdigest : DigestsDiffer (code :: requests.map (·.code)))
    (hfits : ∀ language j, log.Gave a code kind language j → j.AllFit) (clock : Nat → Int) :
    (¬ log.Succeeded code kind ∧ log.ask clock (storedResult (Blake3.textDigest code) kind) =
        .error (.notStored kind (Blake3.textDigest code))) ∨
      ∃ language j, log.Gave a code kind language j ∧
        log.ask clock (storedResult (Blake3.textDigest code) kind) = .ok j.sorted := by
  rcases h.find hdigest kind with ⟨hnone, hfind⟩ | ⟨language, j, hgave, hfind⟩
  · refine Or.inl ⟨hnone, ?_⟩
    rw [CodeGraph.storedResult, ask_lookUp, hfind]
  · refine Or.inr ⟨language, j, hgave, ?_⟩
    have hvalue := Json.parse?_compact (hfits _ _ hgave) (Analyzer.freshJson_ne_number hgave.fresh)
    rw [CodeGraph.storedResult, ask_lookUp, hfind]
    simp only [hvalue]

/-- **Look-ups by digest find what requests were answered.** After any requests and removals of all results, where no
access to the store is refused, a look-up of a node or of a result finds nothing stored exactly where no request with a
result of that kind has succeeded on the source since the last removal. Elsewhere there is a language under which one
has succeeded, and the node is looked up in the tree that was given under it, or the result is the JSON value that was
given under it. The sources of the requests have digests of their own, and the counts in their results fit into
sixty-four bits. -/
theorem lookUps_run (a : Analyzer) (acts : List Act) (code : String)
    (hdigest : DigestsDiffer (code :: (acts.filterMap Act.kept?).map (·.code)))
    (hcounts : ∀ q ∈ acts.filterMap Act.kept?, ∀ language j, a.prepare q.code q.hint = .ok language →
      a.freshJson q.code language q.kind = .ok j → j.AllFit) (clock : Nat → Int) :
    let log := run a acts
    let digest := Blake3.textDigest code
    (∀ id, log.ask clock (storedNode digest id) = .error (.notStored .tree digest) ↔
        ¬ log.Succeeded code .tree) ∧
      (log.Succeeded code .tree → ∃ language r, log.GaveTree a code language r ∧
        ∀ id, log.ask clock (storedNode digest id) = .ok (.of r.tree language id)) ∧
      ∀ kind, (log.ask clock (storedResult digest kind) = .error (.notStored kind digest) ↔
          ¬ log.Succeeded code kind) ∧
        (log.Succeeded code kind → ∃ language j, log.Gave a code kind language j ∧
          log.ask clock (storedResult digest kind) = .ok j.sorted) := by
  intro log digest
  have haccounted : log.Accounted a (acts.filterMap Act.kept?) :=
    accounted_run (hdigest.mono (List.subset_cons_self _ _))
  have hfits : ∀ kind language j, log.Gave a code kind language j → j.AllFit := by
    intro kind language j hgave
    obtain ⟨q, text, hanswered, rfl, rfl, hprepare⟩ := hgave.asked
    exact hcounts q (haccounted.asked q _ hanswered) language j hprepare hgave.fresh
  rw [← and_assoc]
  refine ⟨?_, fun kind => ?_⟩
  · rcases haccounted.storedNode hdigest (hfits .tree) clock with
      ⟨hnone, hnode⟩ | ⟨language, r, htree, hnode⟩
    · exact ⟨fun id => iff_of_true (hnode id) hnone, fun h => absurd h hnone⟩
    · refine ⟨fun id => iff_of_false ?_ (not_not_intro htree.succeeded),
        fun _ => ⟨language, r, htree, hnode⟩⟩
      exact fun hnone => nomatch (hnode id).symm.trans hnone
  · rcases haccounted.storedResult hdigest (hfits kind) clock with
      ⟨hnone, hresult⟩ | ⟨language, j, hgave, hresult⟩
    · exact ⟨iff_of_true hresult hnone, fun h => absurd h hnone⟩
    · refine ⟨iff_of_false ?_ (not_not_intro hgave.succeeded),
        fun _ => ⟨language, j, hgave, hresult⟩⟩
      exact fun hnone => nomatch hresult.symm.trans hnone

/-- An analyzer that takes a source as Go where nothing tells its language. -/
def goAnalyzer : Analyzer where
  parser := Session.wholeParser
  defaultLanguage := some .go

/-- One source is parsed as Python, all results are removed, and it is searched as Go and parsed as Python again. -/
def goActs : List Act :=
  [.request (.kept (.parse "x" ⟨some "python", none⟩)) fun _ => 1, .clear,
    .request (.kept (.locate "x" ⟨0, 1⟩ {})) fun _ => 2,
    .request (.kept (.parse "x" ⟨some "python", none⟩)) fun _ => 3]

theorem succeeded_goActs : (run goAnalyzer goActs).Succeeded "x" .tree :=
  ⟨.locate "x" ⟨0, 1⟩ {}, _, List.mem_cons_of_mem _ List.mem_cons_self, rfl, rfl⟩

theorem requests_goActs :
    ∀ q ∈ goActs.filterMap Act.kept?, q.code = "x" ∧ q.kind = .tree := by
  intro q hq
  have hmem : q ∈ [.parse "x" ⟨some "python", none⟩, .locate "x" ⟨0, 1⟩ {},
      .parse "x" ⟨some "python", none⟩] := hq
  simp only [List.mem_cons, List.not_mem_nil, or_false] at hmem
  rcases hmem with rfl | rfl | rfl <;> exact ⟨rfl, rfl⟩

/-- The two trees that were found after the removal are in the store, and one of them is looked up; there is no graph. -/
theorem lookUps_run_goActs :
    let log := run goAnalyzer goActs
    let digest := Blake3.textDigest "x"
    (∃ language r, log.GaveTree goAnalyzer "x" language r ∧
        ∀ id, log.ask (fun _ => 4) (storedNode digest id) = .ok (.of r.tree language id)) ∧
      (∃ language j, log.Gave goAnalyzer "x" .tree language j ∧
        log.ask (fun _ => 4) (storedResult digest .tree) = .ok j.sorted) ∧
      log.ask (fun _ => 4) (storedResult digest .graph) = .error (.notStored .graph digest) := by
  intro log digest
  have hdigest : DigestsDiffer ("x" :: (goActs.filterMap Act.kept?).map (·.code)) :=
    digestsDiffer_of_forall_eq (List.forall_mem_cons.mpr
      ⟨rfl, List.forall_mem_map.mpr fun q hq => (requests_goActs q hq).1⟩)
  have hcounts : ∀ q ∈ goActs.filterMap Act.kept?, ∀ language j,
      goAnalyzer.prepare q.code q.hint = .ok language →
      goAnalyzer.freshJson q.code language q.kind = .ok j → j.AllFit := by
    intro q hq language j _ hj
    rw [(requests_goActs q hq).1, (requests_goActs q hq).2] at hj
    obtain ⟨r, hr, rfl⟩ := exists_of_map_eq_ok hj
    refine r.reads_codec.allFit_iff.mpr ?_
    cases language <;> cases hr <;> decide
  obtain ⟨-, hnode, hresult⟩ := lookUps_run goAnalyzer goActs "x" hdigest hcounts fun _ => 4
  refine ⟨hnode succeeded_goActs, (hresult .tree).2 succeeded_goActs, (hresult .graph).1.mpr ?_⟩
  rintro ⟨q, text, hanswered, -, hkind⟩
  have haccounted := accounted_run (a := goAnalyzer) (hdigest.mono (List.subset_cons_self _ _))
  cases (requests_goActs q (haccounted.asked q _ hanswered)).2.symm.trans hkind

end Log

end CodeGraph
