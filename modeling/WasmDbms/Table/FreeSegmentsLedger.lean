import WasmDbms.Table.FreeSegments
import Mathlib.Data.List.Nodup
import Mathlib.Tactic.Tauto

/-!
# The free segments ledger

The list of the pages of the free segments tables. Tables are searched in
order: the first with a segment large enough gives space, the first that is not
full takes freed space, and a new table is added when all are full.
-/
namespace WasmDbms
open ByteString MemoryManager

structure FreeSegmentsLedger where
  freeSegmentsPage : Nat
  tables : List Nat
  deriving DecidableEq, Repr

/-- `FreeSegmentTicket`: a segment and the page of its table. -/
structure FreeSegmentTicket where
  segment : FreeSegment
  table : Nat
  deriving DecidableEq, Repr

namespace PagesTable

def encode (pages : List Nat) : List UInt8 := toLE 2 pages.length ++ pages.flatMap (toLE 4)

theorem encode_length (pages : List Nat) : (encode pages).length = 2 + 4 * pages.length := by
  simp [encode, flatMap_length (toLE_length 4)]

/-- What `write_at` uses of a table. The cast of `size()` truncates only when
no page holds the encoding. -/
def encoded (pages : List Nat) : Encoded where
  alignment := defaultAlignment
  size := (2 + pages.length * 4) % (msizeMax + 1)
  bytes := encode pages
  alignment_pos := defaultAlignment_pos
  size_le := Nat.le_of_lt_succ (Nat.mod_lt _ (by decide))
  size_eq := by
    intro _ fits
    rw [encode_length, pageSize_eq] at fits
    rw [encode_length]
    unfold msizeMax
    omega
  saturated := fun _ _ => by decide

end PagesTable

namespace FreeSegmentsLedger

def commit (ledger : FreeSegmentsLedger) : Prog Unit :=
  MemoryAccess.writeAt ledger.freeSegmentsPage 0 (PagesTable.encoded ledger.tables)

def createNewPage (ledger : FreeSegmentsLedger) : Prog (Nat × FreeSegmentsLedger) := do
  let newPage ← MemoryAccess.claimPage
  let ledger := { ledger with tables := ledger.tables ++ [newPage] }
  ledger.commit
  return (newPage, ledger)

/-- The loop over `TablesIter`: loads the tables in order until one gives a result. -/
def searchTables {α : Type} (pick : FreeSegmentsTable → Option α) : List Nat → Prog (Option α)
  | [] => return none
  | page :: pages => do
      let table ← FreeSegmentsTable.load page
      match pick table with
      | some a => return some a
      | none => searchTables pick pages

/-- `align_up::<E>(record.size()) as MSize`. -/
def physicalSize (record : Encoded) : Nat := alignUp record.alignment record.size % (msizeMax + 1)

def insertFreeSegment (ledger : FreeSegmentsLedger) (page offset : Nat) (record : Encoded) :
    Prog FreeSegmentsLedger := do
  match ← searchTables (fun table => if table.isFull then none else some table) ledger.tables with
  | some table => do
      let _ ← table.insertFreeSegment table.records.length page offset (physicalSize record)
      return ledger
  | none => do
      let (newPage, ledger) ← ledger.createNewPage
      let table ← FreeSegmentsTable.load newPage
      let _ ← table.insertFreeSegment table.records.length page offset (physicalSize record)
      return ledger

/-- The first segment, in table order, of at least the unpadded size of the record. -/
def findReusableSegment (ledger : FreeSegmentsLedger) (record : Encoded) :
    Prog (Option FreeSegmentTicket) :=
  searchTables (fun table =>
    (table.records.find? (fun r => decide (record.size ≤ r.size))).map (⟨·, table.page⟩)) ledger.tables

def commitReusedSpace (ledger : FreeSegmentsLedger) (record : Encoded) (ticket : FreeSegmentTicket) :
    Prog Unit := do
  match ← searchTables (fun table => if table.page = ticket.table then some table else none)
      ledger.tables with
  | some table => do
      let _ ← table.remove ticket.segment (physicalSize record)
      return ()
  | none => Prog.throw .outOfBounds

/-- The tables in memory are these, and the ledger lists their pages. -/
structure Holds (m : MemoryManager) (tables : List Nat) (tabs : List (Nat × List FreeSegment)) :
    Prop where
  pages : tables = tabs.map Prod.fst
  nodup : tables.Nodup
  bounded : ∀ tab ∈ tabs, tab.2.length ≤ maxSegments
  typed : ∀ tab ∈ tabs, ∀ s ∈ tab.2, s.Typed
  stored : ∀ tab ∈ tabs, m.Stores tab.1 0 (FreeSegmentsList.encode tab.2)

/-- All segments of the tables. -/
def segments (tabs : List (Nat × List FreeSegment)) : List FreeSegment := tabs.flatMap Prod.snd

theorem load_held {m m' : MemoryManager} {page : Nat} {records : List FreeSegment}
    {t : FreeSegmentsTable} (stored : m.Stores page 0 (FreeSegmentsList.encode records))
    (bounded : records.length ≤ maxSegments) (typed : ∀ s ∈ records, s.Typed)
    (run : m.Runs (FreeSegmentsTable.load page) t m') : m = m' ∧ t = ⟨page, records, bounded⟩ := by
  obtain ⟨rfl, _, decoded⟩ := FreeSegmentsTable.load_runs run
  rw [FreeSegmentsTable.decode_stored stored bounded typed] at decoded
  cases decoded
  exact ⟨rfl, rfl⟩

/-- A search reads only, and what it finds comes from a table in memory. -/
theorem searchTables_runs {α : Type} {pick : FreeSegmentsTable → Option α} {m m' : MemoryManager}
    {tables : List Nat} {tabs : List (Nat × List FreeSegment)} {found : Option α}
    (held : Holds m tables tabs) (run : m.Runs (searchTables pick tables) found m') :
    m = m' ∧ ∀ a, found = some a → ∃ t, pick t = some a ∧ (t.page, t.records) ∈ tabs := by
  obtain ⟨rfl, -, bounded, typed, stored⟩ := held
  induction tabs with
  | nil =>
      simp only [List.map_nil, searchTables, runs_pure] at run
      obtain ⟨rfl, rfl⟩ := run
      exact ⟨rfl, fun a h => by cases h⟩
  | cons tab tabs ih =>
      rw [List.forall_mem_cons] at bounded typed stored
      simp only [List.map_cons, searchTables, runs_bind] at run
      obtain ⟨t, _, loaded, rest⟩ := run
      obtain ⟨rfl, rfl⟩ := load_held stored.1 bounded.1 typed.1 loaded
      split at rest
      · rename_i a picked
        simp only [runs_pure] at rest
        obtain ⟨rfl, rfl⟩ := rest
        refine ⟨rfl, fun a h => ?_⟩
        cases h
        exact ⟨_, picked, List.mem_cons_self⟩
      · obtain ⟨same, inside⟩ := ih bounded.2 typed.2 stored.2 rest
        refine ⟨same, fun a h => ?_⟩
        obtain ⟨t, picked, member⟩ := inside a h
        exact ⟨t, picked, List.mem_cons_of_mem _ member⟩

theorem findReusableSegment_runs {m m' : MemoryManager} {ledger : FreeSegmentsLedger}
    {tabs : List (Nat × List FreeSegment)} {record : Encoded} {found : Option FreeSegmentTicket}
    (held : Holds m ledger.tables tabs) (run : m.Runs (ledger.findReusableSegment record) found m') :
    m = m' ∧ ∀ ticket, found = some ticket → ∃ records, (ticket.table, records) ∈ tabs ∧
      ticket.segment ∈ records ∧ record.size ≤ ticket.segment.size := by
  obtain ⟨same, origin⟩ := searchTables_runs held run
  refine ⟨same, fun ticket h => ?_⟩
  obtain ⟨t, picked, member⟩ := origin ticket h
  obtain ⟨segment, hit, rfl⟩ := Option.map_eq_some_iff.mp picked
  have large := List.find?_some hit
  exact ⟨t.records, member, List.mem_of_find?_eq_some hit, by simpa using large⟩

theorem Holds.of_same {m m' : MemoryManager} {tables : List Nat}
    {tabs : List (Nat × List FreeSegment)} (held : Holds m tables tabs)
    (same : ∀ q ∈ tables, SamePage m m' q) : Holds m' tables tabs := by
  refine ⟨held.pages, held.nodup, held.bounded, held.typed, ?_⟩
  intro tab member
  refine (held.stored tab member).of_same ?_ (same tab.1 ?_)
  · have bounded := held.bounded tab member
    rw [maxSegments_eq] at bounded
    rw [FreeSegmentsList.encode_length, pageSize_eq]
    omega
  · rw [held.pages]
    exact List.mem_map_of_mem member

/-- A table of the list written back with other records. -/
theorem Holds.replace {m m' : MemoryManager} {tables : List Nat} {t : FreeSegmentsTable}
    {before after : List (Nat × List FreeSegment)} {records : List FreeSegment}
    (held : Holds m tables (before ++ (t.page, records) :: after))
    (committed : FreeSegmentsTable.Committed m t m') (typed : ∀ s ∈ t.records, s.Typed) :
    Holds m' tables (before ++ (t.page, t.records) :: after) := by
  have pages := held.pages
  have nodup := held.nodup
  rw [pages, List.map_append, List.map_cons, List.nodup_middle] at nodup
  obtain ⟨alone, _⟩ := List.nodup_cons.mp nodup
  have old : ∀ tab ∈ before ++ after, tab ∈ before ++ (t.page, records) :: after := by
    intro tab member
    rw [List.mem_append] at member ⊢
    exact member.imp_right (List.mem_cons_of_mem _)
  have split : ∀ tab ∈ before ++ (t.page, t.records) :: after,
      tab = (t.page, t.records) ∨ tab ∈ before ++ after := by
    intro tab member
    simp only [List.mem_append, List.mem_cons] at member ⊢
    tauto
  refine ⟨by rw [pages]; simp, held.nodup, ?_, ?_, ?_⟩
  · intro tab member
    rcases split tab member with rfl | other
    · exact t.bounded
    · exact held.bounded tab (old tab other)
  · intro tab member
    rcases split tab member with rfl | other
    · exact typed
    · exact held.typed tab (old tab other)
  · intro tab member
    rcases split tab member with rfl | other
    · exact committed.stored
    · refine (held.stored tab (old tab other)).of_same ?_ (committed.same tab.1 ?_)
      · have bounded := held.bounded tab (old tab other)
        rw [maxSegments_eq] at bounded
        rw [FreeSegmentsList.encode_length, pageSize_eq]
        omega
      · intro same
        have member : tab.1 ∈ (before ++ after).map Prod.fst := List.mem_map_of_mem other
        rw [same, List.map_append] at member
        exact alone member

theorem segments_middle (before after : List (Nat × List FreeSegment)) (page : Nat)
    (records : List FreeSegment) :
    (segments (before ++ (page, records) :: after)).Perm (records ++ segments (before ++ after)) := by
  simp only [segments, List.flatMap_append, List.flatMap_cons]
  rw [← List.append_assoc, ← List.append_assoc]
  exact List.perm_append_comm.append_right _

/-- The ledger page holds the list of tables. -/
def Persisted (m : MemoryManager) (ledger : FreeSegmentsLedger) : Prop :=
  (PagesTable.encode ledger.tables).length ≤ pageSize ∧
    m.Stores ledger.freeSegmentsPage 0 (PagesTable.encode ledger.tables)

theorem Persisted.of_same {m m' : MemoryManager} {ledger : FreeSegmentsLedger}
    (persisted : Persisted m ledger) (same : SamePage m m' ledger.freeSegmentsPage) :
    Persisted m' ledger :=
  ⟨persisted.1, persisted.2.of_same (by rw [Nat.zero_add]; exact persisted.1) same⟩

/-- What an operation leaves of the ledger and of the memory around it: it may
add tables on fresh pages, and writes to no other owned page. -/
structure Updated (m : MemoryManager) (ledger : FreeSegmentsLedger) (owned : Nat → Prop)
    (more : List Nat) (m' : MemoryManager) : Prop where
  fresh : ∀ q ∈ more, ¬ owned q
  pages_le : m.pages ≤ m'.pages
  supply : PageSupply m' (fun q => q ∈ more ∨ owned q)
  same : ∀ q, owned q → q ≠ ledger.freeSegmentsPage → q ∉ ledger.tables → SamePage m m' q
  persisted : Persisted m ledger →
    Persisted m' { ledger with tables := ledger.tables ++ more }

/-- Changes to the tables after new ones were added. -/
theorem Updated.trans {m m₁ m' : MemoryManager} {ledger : FreeSegmentsLedger} {owned : Nat → Prop}
    {more : List Nat} (first : Updated m ledger owned more m₁)
    (second : Updated m₁ { ledger with tables := ledger.tables ++ more }
      (fun q => q ∈ more ∨ owned q) [] m') : Updated m ledger owned more m' := by
  refine ⟨first.fresh, Nat.le_trans first.pages_le second.pages_le,
    second.supply.congr (by simp), ?_, ?_⟩
  · intro q owns apart unlisted
    refine (first.same q owns apart unlisted).trans (second.same q (.inr owns) apart ?_)
    intro listed
    rcases List.mem_append.mp listed with old | new
    · exact unlisted old
    · exact first.fresh q new owns
  · intro persisted
    have last := second.persisted (first.persisted persisted)
    rwa [List.append_nil] at last

/-- Writing a table of the ledger back. -/
theorem updated_of_committed {m m' : MemoryManager} {ledger : FreeSegmentsLedger}
    {owned : Nat → Prop} {t : FreeSegmentsTable} (supply : PageSupply m owned)
    (listed : t.page ∈ ledger.tables) (mine : ∀ q ∈ ledger.tables, owned q)
    (apart : ledger.freeSegmentsPage ∉ ledger.tables)
    (committed : FreeSegmentsTable.Committed m t m') : Updated m ledger owned [] m' := by
  have other : ∀ q, q ≠ t.page → SamePage m m' q := committed.same
  refine ⟨by simp, Nat.le_of_eq committed.pages.symm, ?_, ?_, ?_⟩
  · refine (supply.of_same committed.pages ?_).congr (by simp)
    intro q free
    exact other q (fun same => free (same ▸ mine _ listed))
  · intro q _ _ unlisted
    exact other q (fun same => unlisted (same ▸ listed))
  · intro persisted
    rw [List.append_nil]
    exact persisted.of_same (other _ (fun same => apart (same ▸ listed)))

/-- A page written over by its new content. -/
theorem samePage_commit {m m' : MemoryManager} {ledger : FreeSegmentsLedger} {r : Unit}
    (run : m.Runs ledger.commit r m') :
    m'.pages = m.pages ∧ Persisted m' ledger ∧
      ∀ q, q ≠ ledger.freeSegmentsPage → SamePage m m' q := by
  obtain ⟨_, _, fits, rfl⟩ := runs_writeAt.mp run
  refine ⟨rfl, ⟨?_, stores_writeBytes.left⟩, fun q other => samePage_writeBytes fits other⟩
  have grow := alignUp_ge (PagesTable.encode ledger.tables).length
    (PagesTable.encoded ledger.tables).alignment_pos
  rw [padded_length, Nat.zero_add] at fits
  exact Nat.le_trans grow fits

/-- A new table on a fresh page. -/
theorem createNewPage_runs {m m' : MemoryManager} {ledger ledger' : FreeSegmentsLedger}
    {tabs : List (Nat × List FreeSegment)} {owned : Nat → Prop} {newPage : Nat}
    (held : Holds m ledger.tables tabs) (supply : PageSupply m owned)
    (mine : ∀ q ∈ ledger.tables, owned q) (ledgerMine : owned ledger.freeSegmentsPage)
    (apart : ledger.freeSegmentsPage ∉ ledger.tables)
    (run : m.Runs ledger.createNewPage (newPage, ledger') m') :
    ledger' = { ledger with tables := ledger.tables ++ [newPage] } ∧
      Updated m ledger owned [newPage] m' ∧ Holds m' ledger'.tables (tabs ++ [(newPage, [])]) := by
  unfold createNewPage at run
  simp only [runs_bind, runs_pure] at run
  obtain ⟨_, m₁, claimed, _, m₂, written, result, rfl⟩ := run
  cases result
  have claim := PageSupply.claimPage_runs supply claimed
  obtain ⟨pages, persisted, other⟩ := samePage_commit written
  have newApart : newPage ≠ ledger.freeSegmentsPage := fun same => claim.fresh (same ▸ ledgerMine)
  have old : ∀ q, owned q → SamePage m m₁ q := fun q owns =>
    claim.same q (supply.owned_allocated q owns).1 (supply.owned_allocated q owns).2
  have tableSame : ∀ q ∈ ledger.tables, SamePage m m₂ q := fun q listed =>
    (old q (mine q listed)).trans (other q (fun same => apart (same ▸ listed)))
  refine ⟨rfl, ⟨?_, ?_, ?_, ?_, fun _ => persisted⟩, ?_⟩
  · simpa using claim.fresh
  · exact Nat.le_trans claim.pages_le (Nat.le_of_eq pages.symm)
  · refine (claim.supply.of_same pages ?_).congr (by simp)
    intro q free
    exact other q (fun same => free (.inr (same ▸ ledgerMine)))
  · intro q owns apartLedger _
    exact (old q owns).trans (other q apartLedger)
  · refine ⟨by simp [held.pages], ?_, ?_, ?_, ?_⟩
    · refine List.nodup_append.mpr ⟨held.nodup, by simp, ?_⟩
      intro q listed p new same
      rw [List.mem_singleton.mp new] at same
      exact claim.fresh (same ▸ mine q listed)
    · simpa [or_imp, forall_and] using fun p records member => held.bounded (p, records) member
    · simpa [or_imp, forall_and] using fun p records member => held.typed (p, records) member
    · intro tab member
      rcases List.mem_append.mp member with listed | new
      · have bounded := held.bounded tab listed
        rw [maxSegments_eq] at bounded
        refine (held.stored tab listed).of_same ?_ (tableSame tab.1 ?_)
        · rw [FreeSegmentsList.encode_length, pageSize_eq]
          omega
        · rw [held.pages]
          exact List.mem_map_of_mem listed
      · rw [List.mem_singleton.mp new]
        have zero := claim.zero.of_same (other newPage newApart)
        have empty : FreeSegmentsList.encode [] = zeros 2 := by decide
        rw [empty]
        exact stores_zeros zero (by rw [pageSize_eq]; omega)

/-- A segment inserted into a loaded table of the ledger. -/
theorem insert_into_table {m m' : MemoryManager} {ledger : FreeSegmentsLedger}
    {tabs : List (Nat × List FreeSegment)} {owned : Nat → Prop} {fuel page offset size : Nat}
    {t t' : FreeSegmentsTable} (held : Holds m ledger.tables tabs) (supply : PageSupply m owned)
    (mine : ∀ q ∈ ledger.tables, owned q) (apart : ledger.freeSegmentsPage ∉ ledger.tables)
    (typed : FreeSegment.Typed ⟨page, offset, size⟩) (member : (t.page, t.records) ∈ tabs)
    (run : m.Runs (t.insertFreeSegment fuel page offset size) t' m') :
    Updated m ledger owned [] m' ∧ ∃ tabs', Holds m' ledger.tables tabs' ∧
      Absorbs (segments tabs) ⟨page, offset, size⟩ (segments tabs') := by
  obtain ⟨samePage, committed, absorbed⟩ := FreeSegmentsTable.insertFreeSegment_runs run
  have listed : t'.page ∈ ledger.tables := by
    rw [held.pages, samePage]
    exact List.mem_map_of_mem member
  refine ⟨updated_of_committed supply listed mine apart committed, ?_⟩
  obtain ⟨before, after, rfl⟩ := List.append_of_mem member
  rw [← samePage] at held member
  refine ⟨before ++ (t'.page, t'.records) :: after,
    held.replace committed (absorbed.typed (held.typed _ member) typed), ?_⟩
  rw [samePage]
  refine ((absorbed.frame (segments (before ++ after))).of_perm ?_).perm_right ?_
  · exact segments_middle before after _ _
  · exact segments_middle before after _ _

theorem insertFreeSegment_runs {m m' : MemoryManager} {ledger ledger' : FreeSegmentsLedger}
    {tabs : List (Nat × List FreeSegment)} {owned : Nat → Prop} {page offset : Nat} {record : Encoded}
    (held : Holds m ledger.tables tabs) (supply : PageSupply m owned)
    (mine : ∀ q ∈ ledger.tables, owned q) (ledgerMine : owned ledger.freeSegmentsPage)
    (apart : ledger.freeSegmentsPage ∉ ledger.tables)
    (typed : FreeSegment.Typed ⟨page, offset, physicalSize record⟩)
    (run : m.Runs (ledger.insertFreeSegment page offset record) ledger' m') :
    ∃ more tabs', ledger' = { ledger with tables := ledger.tables ++ more } ∧
      Updated m ledger owned more m' ∧ Holds m' ledger'.tables tabs' ∧
      Absorbs (segments tabs) ⟨page, offset, physicalSize record⟩ (segments tabs') := by
  unfold insertFreeSegment at run
  simp only [runs_bind] at run
  obtain ⟨found, _, searched, rest⟩ := run
  obtain ⟨rfl, origin⟩ := searchTables_runs held searched
  cases found with
  | some t =>
      simp only [runs_bind, runs_pure] at rest
      obtain ⟨t', _, inserted, rfl, rfl⟩ := rest
      obtain ⟨t₀, picked, member⟩ := origin t rfl
      obtain rfl : t₀ = t := by
        split at picked
        · cases picked
        · exact Option.some.inj picked
      obtain ⟨updated, tabs', held', absorbed⟩ :=
        insert_into_table held supply mine apart typed member inserted
      exact ⟨[], tabs', by simp, updated, held', absorbed⟩
  | none =>
      simp only [runs_bind, runs_pure] at rest
      obtain ⟨⟨newPage, ledger₁⟩, m₁, created, t, _, loaded, t', _, inserted, rfl, rfl⟩ := rest
      obtain ⟨rfl, updated, held₁⟩ :=
        createNewPage_runs held supply mine ledgerMine apart created
      have member : (newPage, []) ∈ tabs ++ [(newPage, [])] := by simp
      obtain ⟨rfl, rfl⟩ := load_held (held₁.stored _ member) (held₁.bounded _ member)
        (held₁.typed _ member) loaded
      have mine₁ : ∀ q ∈ ledger.tables ++ [newPage], q ∈ [newPage] ∨ owned q := by
        intro q listed
        exact (List.mem_append.mp listed).symm.imp_right (mine q)
      have apart₁ : ledger.freeSegmentsPage ∉ ledger.tables ++ [newPage] := by
        intro listed
        rcases List.mem_append.mp listed with old | new
        · exact apart old
        · exact updated.fresh _ new ledgerMine
      obtain ⟨updated₂, tabs', held', absorbed⟩ :=
        insert_into_table held₁ updated.supply mine₁ apart₁ typed member inserted
      refine ⟨[newPage], tabs', rfl, updated.trans updated₂, held', ?_⟩
      simpa [segments] using absorbed

theorem commitReusedSpace_runs {m m' : MemoryManager} {ledger : FreeSegmentsLedger}
    {tabs : List (Nat × List FreeSegment)} {owned : Nat → Prop} {record : Encoded}
    {ticket : FreeSegmentTicket} {records : List FreeSegment} {r : Unit}
    (held : Holds m ledger.tables tabs) (supply : PageSupply m owned)
    (mine : ∀ q ∈ ledger.tables, owned q) (apart : ledger.freeSegmentsPage ∉ ledger.tables)
    (table : (ticket.table, records) ∈ tabs) (listed : ticket.segment ∈ records)
    (run : m.Runs (ledger.commitReusedSpace record ticket) r m') :
    Updated m ledger owned [] m' ∧ ∃ tabs' rest, Holds m' ledger.tables tabs' ∧
      (segments tabs).Perm (ticket.segment :: rest) ∧
      (segments tabs').Perm
        (FreeSegmentsTable.remainder ticket.segment (physicalSize record) ++ rest) := by
  unfold commitReusedSpace at run
  simp only [runs_bind] at run
  obtain ⟨found, _, searched, rest⟩ := run
  obtain ⟨rfl, origin⟩ := searchTables_runs held searched
  cases found with
  | none => exact absurd rest runs_throw
  | some t =>
      simp only [runs_bind, runs_pure] at rest
      obtain ⟨t', _, removed, -, rfl⟩ := rest
      obtain ⟨t₀, picked, member⟩ := origin t rfl
      obtain ⟨rfl, page⟩ : t₀ = t ∧ t.page = ticket.table := by
        split at picked
        · cases picked
          exact ⟨rfl, by assumption⟩
        · cases picked
      have unique : (t₀.page, t₀.records) = (ticket.table, records) :=
        List.inj_on_of_nodup_map (held.pages ▸ held.nodup) member table page
      obtain rfl : t₀.records = records := congrArg Prod.snd unique
      obtain ⟨samePage, committed, others, taken, left⟩ :=
        FreeSegmentsTable.remove_runs listed removed
      have inLedger : t'.page ∈ ledger.tables := by
        rw [held.pages, samePage]
        exact List.mem_map_of_mem member
      refine ⟨updated_of_committed supply inLedger mine apart committed, ?_⟩
      have oldTyped := held.typed _ member
      have typed : ∀ s ∈ t'.records, s.Typed := by
        intro s inside
        rcases List.mem_append.mp (left.mem_iff.mp inside) with new | old
        · unfold FreeSegmentsTable.remainder at new
          split at new
          · rw [List.mem_singleton.mp new]
            have whole := oldTyped _ listed
            exact ⟨whole.1, Nat.min_le_right _ _, Nat.le_trans (Nat.sub_le _ _) whole.2.2⟩
          · cases new
        · exact oldTyped s (taken.mem_iff.mpr (List.mem_cons_of_mem _ old))
      obtain ⟨before, after, rfl⟩ := List.append_of_mem member
      rw [← samePage] at held
      refine ⟨before ++ (t'.page, t'.records) :: after, others ++ segments (before ++ after),
        held.replace committed typed, ?_, ?_⟩
      · exact (segments_middle before after _ _).trans (taken.append_right _)
      · refine (segments_middle before after _ _).trans ?_
        rw [← List.append_assoc]
        exact left.append_right _

end FreeSegmentsLedger

end WasmDbms
