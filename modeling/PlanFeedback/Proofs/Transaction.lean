import PlanFeedback.Proofs.Journal

/-!
Writes are all or nothing, whatever bytes the tables hold. What a request does to the tables is what
its transaction commits, taken step by step on a copy: it succeeds exactly if the bytes that it reads
can be read, changes the rows that it is about and no others, and leaves all as it was if it fails.
-/
namespace PlanFeedback.Store

open Text (Bytes)
open Time (Instant)

namespace Durable

def row? (d : Durable) (name : TableName) (key : Bytes) : Option Bytes :=
  (d.tableOrEmpty name).get? key

def cell? (d : Durable) (log : TableName) : Option Bytes := d.row? .sequences (sequenceKey log)

/-- The hints in the row under a key, which are empty if there is no row. -/
def hintsAt (d : Durable) (key : Bytes) : Except StorageError String :=
  match d.row? .hints key with
  | some bytes => (decode HintRecord.reader bytes).map HintRecord.hints
  | none => .ok ""

theorem replace_eq_hintsAt (d : Durable) (now : Instant) (normalized client rows : String) :
    d.replace now normalized client rows = (d.hintsAt (hintKey normalized client)).map fun prior =>
      (mergeRowHints prior rows, d.put .hints (hintKey normalized client)
        (encode (HintRecord.json ⟨normalized, client, mergeRowHints prior rows, now⟩))) := by
  rw [replace, hintsAt, row?]
  cases (d.tableOrEmpty .hints).get? (hintKey normalized client) with
  | none => rfl
  | some bytes =>
      simp only
      cases decode HintRecord.reader bytes <;> rfl

end Durable

/-! Transactions. -/

/-- Steps on a copy of the tables. An error ends them, and the copy may be half written by then. -/
abbrev Writing := ExceptT StorageError (StateM Durable)

namespace Writing

variable {α β : Type}

def on (steps : Writing α) (d : Durable) : Except StorageError α × Durable := steps.run.run d

/-- The copy takes the place of the tables if all steps succeeded. Otherwise the tables stay. -/
def commit (steps : Writing α) (d : Durable) : Except StorageError α × Durable :=
  match steps.on d with
  | (.ok x, copy) => (.ok x, copy)
  | (.error e, _) => (.error e, d)

def look (read : Durable → Except StorageError α) : Writing α :=
  ExceptT.mk do return read (← get)

def put (name : TableName) (row : Row) : Writing Unit :=
  modify fun d => d.put name row.1 row.2

def nextId (log : TableName) : Writing Nat := do
  let last ← look fun d => d.lastId log
  let id := (last + 1) % 0x10000000000000000
  put .sequences (Durable.sequenceKey log, wordBytes id)
  return id

def append (log : TableName) (encodeRow : Nat → Except StorageError Row) : Writing Nat := do
  let id ← nextId log
  let row ← look fun _ => encodeRow id
  put log row
  return id

def replace (now : Instant) (normalized client rows : String) : Writing String := do
  let key := hintKey normalized client
  let prior ← look fun d => d.hintsAt key
  let record : HintRecord := ⟨normalized, client, mergeRowHints prior rows, now⟩
  put .hints (key, encode record.json)
  return record.hints

theorem on_pure (x : α) (d : Durable) : (pure x : Writing α).on d = (.ok x, d) := rfl

theorem on_bind (steps : Writing α) (f : α → Writing β) (d : Durable) :
    (steps >>= f).on d =
      match steps.on d with
      | (.ok x, copy) => (f x).on copy
      | (.error e, copy) => (.error e, copy) := by
  change (match steps.on d with
    | (x, copy) => (ExceptT.bindCont f x : StateM Durable _) copy) = _
  obtain ⟨x, copy⟩ := steps.on d
  cases x <;> rfl

theorem on_look (read : Durable → Except StorageError α) (f : α → Writing β) (d : Durable) :
    (look read >>= f).on d =
      match read d with
      | .ok x => (f x).on d
      | .error e => (.error e, d) := by
  have hlook : (look read).on d = (read d, d) := rfl
  rw [on_bind, hlook]
  cases read d <;> rfl

theorem on_put (name : TableName) (row : Row) (f : Unit → Writing β) (d : Durable) :
    (put name row >>= f).on d = (f ()).on (d.put name row.1 row.2) := rfl

/-- A row is counted before it is encoded, so an error leaves the copy with a count too many. -/
theorem on_append (log : TableName) (encodeRow : Nat → Except StorageError Row) (d : Durable) :
    (append log encodeRow).on d =
      match d.lastId log with
      | .error e => (.error e, d)
      | .ok last =>
        let id := (last + 1) % 0x10000000000000000
        match encodeRow id with
        | .error e => (.error e, d.put .sequences (Durable.sequenceKey log) (wordBytes id))
        | .ok row => (.ok id, d.stored log id row) := by
  rw [append, nextId, bind_assoc, on_look]
  cases d.lastId log with
  | error e => rfl
  | ok last =>
      simp only [bind_assoc, pure_bind]
      rw [on_put, on_look]
      cases encodeRow ((last + 1) % 0x10000000000000000) with
      | error e => rfl
      | ok row =>
          simp only
          rw [on_put, on_pure, Durable.stored]

theorem on_replace (now : Instant) (normalized client rows : String) (d : Durable) :
    (replace now normalized client rows).on d =
      match d.hintsAt (hintKey normalized client) with
      | .error e => (.error e, d)
      | .ok prior =>
        let text := mergeRowHints prior rows
        (.ok text, d.put .hints (hintKey normalized client)
          (encode (HintRecord.json ⟨normalized, client, text, now⟩))) := by
  rw [replace, on_look]
  cases d.hintsAt (hintKey normalized client) with
  | error e => rfl
  | ok prior =>
      simp only
      rw [on_put, on_pure]

theorem commit_bind_pure (f : α → β) (steps : Writing α) (d : Durable) :
    (steps >>= fun x => pure (f x)).commit d = ((steps.commit d).1.map f, (steps.commit d).2) := by
  rw [commit, commit, on_bind]
  obtain ⟨x, copy⟩ := steps.on d
  cases x <;> rfl

theorem commit_append (log : TableName) (row : Nat → Row) (d : Durable) :
    (append log fun id => .ok (row id)).commit d =
      match d.append log row with
      | .ok (id, d') => (.ok id, d')
      | .error e => (.error e, d) := by
  rw [commit, on_append, Durable.append]
  cases d.lastId log <;> rfl

theorem commit_replace (now : Instant) (normalized client rows : String) (d : Durable) :
    (replace now normalized client rows).commit d =
      match d.replace now normalized client rows with
      | .ok (text, d') => (.ok text, d')
      | .error e => (.error e, d) := by
  rw [commit, on_replace, Durable.replace_eq_hintsAt]
  cases d.hintsAt (hintKey normalized client) <;> rfl

end Writing

/-! Requests. -/

namespace Request

/-- The log that a request appends to, and the row that it stores under an id. -/
def append? (now : Instant) : Request → Option (TableName × (Nat → Row))
  | appendHistory record =>
    some (.history, fun id => (historyKey id, encode { record with id }.json))
  | recordText log queryKey text =>
    some (log.table, fun id =>
      (textKey queryKey id, encode (TextRecord.json log ⟨id, queryKey, text, now⟩)))
  | ensureSchema | load _ _ | replace _ _ _ | history _ | texts _ _ => none

def writing? (now : Instant) (q : Request) : Option (Writing Answer) :=
  match q with
  | replace normalized client rows =>
    some do return .hints (← Writing.replace now normalized client rows)
  | q => (q.append? now).map fun (log, row) => do
    return .id (← Writing.append log fun id => .ok (row id))

variable {now : Instant} {q : Request} {log : TableName} {row : Nat → Row}

theorem answer_append (h : q.append? now = some (log, row)) (d : Durable) :
    q.answer Durable.repository now d =
      match d.append log row with
      | .ok (id, d') => (.ok (.id id), d')
      | .error e => (.error e, d) := by
  cases q with
  | appendHistory record =>
      cases h
      simp only [answer, ask, Durable.repository, Durable.appendHistory]
      cases d.append .history fun id => (historyKey id, encode { record with id }.json) <;> rfl
  | recordText log' queryKey text =>
      cases h
      simp only [answer, ask, Durable.repository, Durable.recordText]
      cases d.append log'.table fun id =>
        (textKey queryKey id, encode (TextRecord.json log' ⟨id, queryKey, text, now⟩)) <;> rfl
  | _ => cases h

theorem answer_replace (now : Instant) (normalized client rows : String) (d : Durable) :
    (replace normalized client rows).answer Durable.repository now d =
      match d.replace now normalized client rows with
      | .ok (text, d') => (.ok (.hints text), d')
      | .error e => (.error e, d) := by
  simp only [answer, ask, Durable.repository]
  cases d.replace now normalized client rows <;> rfl

/-- A request that writes does what its transaction commits. -/
theorem answer_eq_commit {steps : Writing Answer} (h : q.writing? now = some steps) (d : Durable) :
    q.answer Durable.repository now d = steps.commit d := by
  rw [writing?.eq_def] at h
  split at h
  · rename_i normalized client rows
    cases h
    rw [answer_replace, Writing.commit_bind_pure, Writing.commit_replace]
    cases d.replace now normalized client rows <;> rfl
  · obtain ⟨⟨log, row⟩, happend, rfl⟩ := Option.map_eq_some_iff.1 h
    rw [answer_append happend, Writing.commit_bind_pure, Writing.commit_append]
    cases d.append log row <;> rfl

end Request

/-! Changes. -/

namespace Durable

variable {d d' d'' : Durable} {log name : TableName}

theorem row?_put (d : Durable) (name : TableName) (key value : Bytes) (name' : TableName)
    (key' : Bytes) : (d.put name key value).row? name' key' =
      if name' = name ∧ key' = key then some value else d.row? name' key' := by
  rw [row?, tableOrEmpty_put]
  by_cases hname : name' = name
  · rw [if_pos hname, Table.get?_insert, row?, hname]
    simp only [true_and]
  · rw [if_neg hname, if_neg (mt And.left hname), row?]

/-- Of all rows, only these were written, and of all tables that did not exist, only theirs were
made. -/
structure Changes (d d' : Durable) (rows : List (TableName × Row)) : Prop where
  written : ∀ name row, (name, row) ∈ rows → d'.row? name row.1 = some row.2
  kept : ∀ name key, (∀ value, (name, key, value) ∉ rows) → d'.row? name key = d.row? name key
  tables : ∀ name, d'.table? name = none ↔ d.table? name = none ∧ ∀ row, (name, row) ∉ rows

theorem changes_put (d : Durable) (name : TableName) (key value : Bytes) :
    Changes d (d.put name key value) [(name, key, value)] where
  written name' row' hrow := by
    obtain ⟨rfl, rfl⟩ := Prod.mk.inj (List.mem_singleton.1 hrow)
    rw [row?_put, if_pos ⟨rfl, rfl⟩]
  kept name' key' hkey := by
    rw [row?_put, if_neg]
    rintro ⟨rfl, rfl⟩
    exact hkey value List.mem_cons_self
  tables name' := by
    simp only [put, set, List.mem_singleton, Prod.mk.injEq]
    by_cases hname : name' = name
    · simp [hname]
    · simp [hname]

/-- Rows under other places than before are written besides. -/
theorem Changes.trans {rows rows' : List (TableName × Row)} (h : Changes d d' rows)
    (h' : Changes d' d'' rows')
    (hother : ∀ name row value, (name, row) ∈ rows → (name, row.1, value) ∉ rows') :
    Changes d d'' (rows ++ rows') where
  written name row hrow := by
    rcases List.mem_append.1 hrow with hrow | hrow
    · rw [h'.kept name row.1 fun value => hother name row value hrow]
      exact h.written name row hrow
    · exact h'.written name row hrow
  kept name key hkey := by
    rw [h'.kept name key fun value hmem => hkey value (List.mem_append_right rows hmem)]
    exact h.kept name key fun value hmem => hkey value (List.mem_append_left rows' hmem)
  tables name := by
    rw [h'.tables, h.tables, and_assoc, ← forall_and]
    simp only [List.mem_append, not_or]

theorem changes_stored (d : Durable) (hlog : log ≠ .sequences) (id : Nat) (row : Row) :
    Changes d (d.stored log id row) [(.sequences, sequenceKey log, wordBytes id), (log, row)] := by
  refine (changes_put d .sequences (sequenceKey log) (wordBytes id)).trans
    (changes_put _ log row.1 row.2) fun name row' value hrow hrow' => ?_
  have hname := (Prod.mk.inj (List.mem_singleton.1 hrow)).1
  have hname' := (Prod.mk.inj (List.mem_singleton.1 hrow')).1
  exact hlog (hname'.symm.trans hname)

/-! Success. -/

/-- The cell of a log is absent or has eight bytes. -/
def Countable (d : Durable) (log : TableName) : Prop :=
  d.cell? log = none ∨ ∃ cell, d.cell? log = some cell ∧ cell.length = 8

def count (d : Durable) (log : TableName) : Nat := (d.cell? log).elim 0 ofBigEndian

theorem lastId_countable (h : d.Countable log) : d.lastId log = .ok (d.count log) := by
  rw [Countable, cell?, row?] at h
  rw [lastId, count, cell?, row?]
  rcases h with habsent | ⟨cell, hcell, hlength⟩
  · rw [habsent]
    rfl
  · rw [hcell]
    simp only [if_pos hlength, Option.elim_some]

theorem lastId_uncountable (h : ¬ d.Countable log) : ∃ e, d.lastId log = .error e := by
  rw [Countable, cell?, row?, not_or] at h
  obtain ⟨hpresent, hlength⟩ := h
  obtain ⟨cell, hcell⟩ := Option.ne_none_iff_exists'.1 hpresent
  rw [lastId, hcell]
  simp only [if_neg fun hlen => hlength ⟨cell, hcell, hlen⟩]
  exact ⟨_, rfl⟩

/-- There is no row of hints under a key, or one that can be read. -/
def Legible (d : Durable) (key : Bytes) : Prop :=
  d.row? .hints key = none ∨
    ∃ bytes record, d.row? .hints key = some bytes ∧ decode HintRecord.reader bytes = .ok record

theorem hintsAt_ok_iff {key : Bytes} : (∃ prior, d.hintsAt key = .ok prior) ↔ d.Legible key := by
  rw [hintsAt, Legible]
  cases d.row? .hints key with
  | none => simp
  | some bytes =>
      simp only
      cases hread : decode HintRecord.reader bytes <;> simp [Except.map, hread]

theorem load_put (d : Durable) {now : Instant} (hnow : now.Valid)
    (normalized client hints : String) :
    (d.put .hints (hintKey normalized client)
      (encode (HintRecord.json ⟨normalized, client, hints, now⟩))).load normalized client =
        .ok hints := by
  have hjson : HintRecord.json ⟨normalized, client, hints, now⟩ =
      HintRecord.json ⟨normalized, client, hints, now.settled⟩ := by
    simp only [HintRecord.json, instantJson_settled hnow]
  have hread := HintRecord.decode_encode (r := ⟨normalized, client, hints, now.settled⟩)
    (stampsBack_settled hnow)
  simp only [load, read, put, set, if_true, bind, Except.bind, Table.get?_insert, hjson, hread]
  rfl

end Durable

namespace Request

variable {now : Instant} {q : Request} {log : TableName} {row : Nat → Row} {d : Durable}

theorem answer_append_countable (h : q.append? now = some (log, row)) (hcell : d.Countable log)
    (hroom : d.count log < 0xFFFFFFFFFFFFFFFF) :
    q.answer Durable.repository now d =
      (.ok (.id (d.count log + 1)), d.stored log (d.count log + 1) (row (d.count log + 1))) := by
  rw [answer_append h, Durable.append_eq (Durable.lastId_countable hcell) (by omega)]

theorem answer_append_uncountable (h : q.append? now = some (log, row))
    (hcell : ¬ d.Countable log) : ∃ e, q.answer Durable.repository now d = (.error e, d) := by
  obtain ⟨e, he⟩ := Durable.lastId_uncountable hcell
  rw [answer_append h, Durable.append, he]
  exact ⟨e, rfl⟩

theorem append?_ne_sequences (h : q.append? now = some (log, row)) : log ≠ .sequences := by
  cases q with
  | appendHistory record => cases h; decide
  | recordText log' queryKey text => cases h; exact log'.table_ne_sequences
  | _ => cases h

end Request

namespace Durable

/-- What an append does: it succeeds exactly if the cell of the log can be counted on, answers the
next id, and writes the cell and the row of the record under this id. -/
structure Appends (d : Durable) (now : Instant) (q : Request) (log : TableName) (row : Nat → Row) :
    Prop where
  succeeds : (∃ a d', q.answer repository now d = (.ok a, d')) ↔ d.Countable log
  writes : ∀ a d', q.answer repository now d = (.ok a, d') → a = .id (d.count log + 1) ∧
    d.Changes d' [(.sequences, sequenceKey log, wordBytes (d.count log + 1)),
      (log, row (d.count log + 1))]

/-- What a replacement of hints does: it succeeds exactly if there is no row under its key or one that
can be read, writes this row, and answers the hints that are loaded from then on. -/
structure Replaces (d : Durable) (now : Instant) (normalized client rows : String) : Prop where
  succeeds : (∃ a d', (Request.replace normalized client rows).answer repository now d = (.ok a, d')) ↔
    d.Legible (hintKey normalized client)
  writes : ∀ a d', (Request.replace normalized client rows).answer repository now d = (.ok a, d') →
    ∃ prior, d.hintsAt (hintKey normalized client) = .ok prior ∧
      a = .hints (mergeRowHints prior rows) ∧
      d'.load normalized client = .ok (mergeRowHints prior rows) ∧
      d.Changes d' [(.hints, hintKey normalized client,
        encode (HintRecord.json ⟨normalized, client, mergeRowHints prior rows, now⟩))]

theorem appends {d : Durable} {now : Instant} {q : Request} {log : TableName} {row : Nat → Row}
    (h : q.append? now = some (log, row))
    (hroom : d.Countable log → d.count log < 0xFFFFFFFFFFFFFFFF) : d.Appends now q log row := by
  by_cases hcell : d.Countable log
  · have hanswer := Request.answer_append_countable h hcell (hroom hcell)
    refine ⟨⟨fun _ => hcell, fun _ => ⟨_, _, hanswer⟩⟩, fun a d' hok => ?_⟩
    obtain ⟨ha, rfl⟩ := Prod.mk.inj (hanswer.symm.trans hok)
    exact ⟨(Except.ok.inj ha).symm, changes_stored d (Request.append?_ne_sequences h) _ _⟩
  · obtain ⟨e, hanswer⟩ := Request.answer_append_uncountable h hcell
    have hfails : ¬ ∃ a d', q.answer repository now d = (.ok a, d') := by
      rintro ⟨a, d', hok⟩
      cases (Prod.mk.inj (hanswer.symm.trans hok)).1
    exact ⟨iff_of_false hfails hcell, fun a d' hok => absurd ⟨a, d', hok⟩ hfails⟩

theorem replaces (d : Durable) {now : Instant} (hnow : now.Valid)
    (normalized client rows : String) : d.Replaces now normalized client rows := by
  have hanswer := Request.answer_replace now normalized client rows d
  rw [replace_eq_hintsAt] at hanswer
  refine ⟨?_, fun a d' hok => ?_⟩
  · rw [← hintsAt_ok_iff, hanswer]
    cases d.hintsAt (hintKey normalized client) <;> simp [Except.map]
  · cases hprior : d.hintsAt (hintKey normalized client) with
    | error e =>
        rw [hanswer, hprior] at hok
        cases hok
    | ok prior =>
        rw [hanswer, hprior, Except.map] at hok
        obtain ⟨ha, rfl⟩ := Prod.mk.inj hok
        exact ⟨prior, rfl, (Except.ok.inj ha).symm, load_put d hnow normalized client _,
          changes_put d .hints _ _⟩

/-- A write is all or nothing, whatever bytes the tables hold. It does what its transaction commits,
and after an error all is as before. -/
theorem write_all_or_nothing (d : Durable) {now : Instant} (hnow : now.Valid) {q : Request}
    {steps : Writing Answer} (h : q.writing? now = some steps) :
    q.answer repository now d = steps.commit d ∧
    (∀ e d', q.answer repository now d = (.error e, d') → d' = d) ∧
    (∀ log row, q.append? now = some (log, row) →
      (d.Countable log → d.count log < 0xFFFFFFFFFFFFFFFF) → d.Appends now q log row) ∧
    ∀ normalized client rows, q = .replace normalized client rows →
      d.Replaces now normalized client rows := by
  have hcommit := Request.answer_eq_commit h d
  refine ⟨hcommit, ?error, fun log row happend hroom => appends happend hroom, ?replace⟩
  case error =>
    intro e d' herror
    rw [hcommit, Writing.commit] at herror
    split at herror
    · cases herror
    · exact (Prod.mk.inj herror).2.symm
  case replace =>
    rintro normalized client rows rfl
    exact replaces d hnow normalized client rows

/-- Tables with a cell of three bytes and a row of hints that cannot be read. -/
def corrupt : Durable :=
  (new.put .sequences (sequenceKey .raw) [1, 2, 3]).put .hints (hintKey "SELECT ?" "psql") [0x7B]

theorem exists_error {result : Except StorageError Answer × Durable}
    (h : ¬ ∃ a d', result = (.ok a, d')) : ∃ e d', result = (.error e, d') := by
  obtain ⟨answer, d'⟩ := result
  cases answer with
  | error e => exact ⟨e, d', rfl⟩
  | ok a => exact absurd ⟨a, d', rfl⟩ h

theorem write_all_or_nothing_corrupt :
    Instant.Valid ⟨20000, 3600, 0⟩ ∧
      (∃ d', (Request.recordText .normalized "k" "SELECT ?").answer repository ⟨20000, 3600, 0⟩
        corrupt = (.ok (.id 1), d')) ∧
      (∃ e, (Request.recordText .raw "k" "SELECT 1").answer repository ⟨20000, 3600, 0⟩ corrupt =
        (.error e, corrupt)) ∧
      ∃ e, (Request.replace "SELECT ?" "psql" "Rows(a b #1) ").answer repository
        ⟨20000, 3600, 0⟩ corrupt = (.error e, corrupt) := by
  have hnow : Instant.Valid ⟨20000, 3600, 0⟩ := ⟨by decide, by decide, by decide⟩
  refine ⟨hnow, ?counted, ?uncounted, ?unread⟩
  case counted =>
    obtain ⟨-, -, happends, -⟩ :=
      write_all_or_nothing corrupt hnow (q := .recordText .normalized "k" "SELECT ?") rfl
    have hcell : corrupt.cell? TextLog.normalized.table = none := by decide +kernel
    have hcount : corrupt.count TextLog.normalized.table = 0 := by rw [count, hcell]; rfl
    have hdoes := happends _ _ rfl fun _ => by rw [hcount]; decide
    obtain ⟨a, d', hanswer⟩ := hdoes.succeeds.2 (.inl hcell)
    obtain ⟨rfl, -⟩ := hdoes.writes a d' hanswer
    exact ⟨d', by rw [hanswer, hcount]⟩
  case uncounted =>
    obtain ⟨-, herror, happends, -⟩ :=
      write_all_or_nothing corrupt hnow (q := .recordText .raw "k" "SELECT 1") rfl
    have hcell : corrupt.cell? .raw = some [1, 2, 3] := by decide +kernel
    have huncountable : ¬ corrupt.Countable .raw := by simp [Countable, hcell]
    have hdoes := happends _ _ rfl fun hcountable => absurd hcountable huncountable
    obtain ⟨e, d', hanswer⟩ := exists_error (mt hdoes.succeeds.1 huncountable)
    exact ⟨e, by rw [hanswer, herror e d' hanswer]⟩
  case unread =>
    obtain ⟨-, herror, -, hreplaces⟩ :=
      write_all_or_nothing corrupt hnow (q := .replace "SELECT ?" "psql" "Rows(a b #1) ") rfl
    have hrow : corrupt.row? .hints (hintKey "SELECT ?" "psql") = some [0x7B] := by decide +kernel
    have hread : decode HintRecord.reader [0x7B] = .error (unreadable [0x7B]) := by rfl
    have hillegible : ¬ corrupt.Legible (hintKey "SELECT ?" "psql") := by
      simp [Legible, hrow, hread]
    obtain ⟨e, d', hanswer⟩ := exists_error (mt (hreplaces _ _ _ rfl).succeeds.1 hillegible)
    exact ⟨e, by rw [hanswer, herror e d' hanswer]⟩

end Durable

end PlanFeedback.Store
