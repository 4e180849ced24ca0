import WasmDbms.Table.Content

/-!
# The invariant of a table and its operations

A registry with its pages in memory: the ledgers are in order, the layout
holds, and the pages contain the live records. Each operation that succeeds
keeps it and touches no page of another owner.
-/
namespace WasmDbms
open Extents MemoryManager FreeSegmentsLedger

/-- The pages of a table. -/
def TableRegistry.ownedPages (reg : TableRegistry) : List Nat :=
  reg.pageLedger.ledgerPage :: reg.freeSegmentsLedger.freeSegmentsPage ::
    (reg.freeSegmentsLedger.tables ++ reg.pageLedger.pages.map PageRecord.page)

variable {E : Type} [Encode E]

/-- The registry and the memory hold exactly these live records, with these
free segments tables; `other` are the pages of other owners. -/
structure TableInv (reg : TableRegistry) (m : MemoryManager) (other : Nat → Prop)
    (live : List (RecordAddress × E)) (tabs : List (Nat × List FreeSegment)) : Prop where
  supply : PageSupply m (fun q => q ∈ reg.ownedPages ∨ other q)
  nodup : reg.ownedPages.Nodup
  separate : ∀ q ∈ reg.ownedPages, ¬ other q
  held : FreeSegmentsLedger.Holds m reg.freeSegmentsLedger.tables tabs
  sounds : ∀ s ∈ segments tabs, SoundSegment (RawRecord.alignment E) s
  fits : ∀ x ∈ live, RawRecord.footprint x.2 ≤ msizeMax
  layout : Layout (RawRecord.alignment E) reg.pageLedger.pages
    ((segments tabs).map (freeExtent (RawRecord.alignment E)) ++ live.map slotExtent)
  content : Content m (reg.pageLedger.pages.map PageRecord.page) live
  persisted : reg.freeSegmentsLedger.Persisted m

namespace TableInv

variable {reg : TableRegistry} {m m' : MemoryManager} {other : Nat → Prop}
  {live : List (RecordAddress × E)} {tabs : List (Nat × List FreeSegment)}

theorem placed_slot (inv : TableInv reg m other live tabs) {x : RecordAddress × E} (member : x ∈ live) :
    Placed (RawRecord.alignment E) reg.pageLedger.pages (slotExtent x) :=
  inv.layout.placed _ (List.mem_append_right _ (List.mem_map_of_mem member))

theorem slot_page (inv : TableInv reg m other live tabs) {x : RecordAddress × E} (member : x ∈ live) :
    x.1.page ∈ reg.pageLedger.pages.map PageRecord.page := by
  obtain ⟨r, listed, page, _⟩ := (inv.placed_slot member).below
  exact List.mem_map.mpr ⟨r, listed, page⟩

theorem slot_end (inv : TableInv reg m other live tabs) {x : RecordAddress × E} (member : x ∈ live) :
    x.1.offset + RawRecord.footprint x.2 ≤ pageSize := (inv.placed_slot member).end_le

theorem data_owned {page : Nat} (listed : page ∈ reg.pageLedger.pages.map PageRecord.page) :
    page ∈ reg.ownedPages := by
  simp only [TableRegistry.ownedPages, List.mem_cons, List.mem_append]
  exact .inr (.inr (.inr listed))

theorem table_owned {page : Nat} (listed : page ∈ reg.freeSegmentsLedger.tables) :
    page ∈ reg.ownedPages := by
  simp only [TableRegistry.ownedPages, List.mem_cons, List.mem_append]
  exact .inr (.inr (.inl listed))

theorem nodup_parts (inv : TableInv reg m other live tabs) :
    reg.freeSegmentsLedger.freeSegmentsPage ∉ reg.freeSegmentsLedger.tables ∧
    ∀ q ∈ reg.pageLedger.pages.map PageRecord.page, q ≠ reg.pageLedger.ledgerPage ∧
      q ≠ reg.freeSegmentsLedger.freeSegmentsPage ∧ q ∉ reg.freeSegmentsLedger.tables := by
  have nodup := inv.nodup
  simp only [TableRegistry.ownedPages, List.nodup_cons, List.mem_cons, List.mem_append, not_or] at nodup
  obtain ⟨⟨_, _, ledgerData⟩, ⟨freeTables, freeData⟩, rest⟩ := nodup
  refine ⟨freeTables, fun q listed => ⟨?_, ?_, ?_⟩⟩
  · rintro rfl
    exact ledgerData listed
  · rintro rfl
    exact freeData listed
  · intro inTables
    exact (List.nodup_append.mp rest).2.2 q inTables q listed rfl

/-- Writing inside a data page leaves the free segments ledger and its tables alone. -/
theorem data_write (inv : TableInv reg m other live tabs) {page offset : Nat} {bs : List UInt8}
    (listed : page ∈ reg.pageLedger.pages.map PageRecord.page)
    (fits : offset + bs.length ≤ pageSize) :
    PageSupply (m.writeBytes page offset bs) (fun q => q ∈ reg.ownedPages ∨ other q) ∧
      FreeSegmentsLedger.Holds (m.writeBytes page offset bs) reg.freeSegmentsLedger.tables tabs ∧
      reg.freeSegmentsLedger.Persisted (m.writeBytes page offset bs) ∧
      Frame other m (m.writeBytes page offset bs) := by
  obtain ⟨_, apart⟩ := inv.nodup_parts
  obtain ⟨_, freeApart, tableApart⟩ := apart page listed
  have same : ∀ q, q ≠ page → SamePage m (m.writeBytes page offset bs) q :=
    fun q other => samePage_writeBytes fits other
  refine ⟨inv.supply.of_same rfl ?_, inv.held.of_same ?_, inv.persisted.of_same (same _ freeApart.symm),
    ⟨Nat.le_refl _, ?_⟩⟩
  · intro q free
    exact same q (fun h => free (.inl (h ▸ data_owned listed)))
  · intro q inTables
    exact same q (fun h => tableApart (h ▸ inTables))
  · intro q others
    exact same q (fun h => inv.separate _ (data_owned listed) (h ▸ others))

/-- The invariant after the free segments ledger was brought up to date with
records that are already in place. -/
theorem of_updated {live' : List (RecordAddress × E)} {tabs' : List (Nat × List FreeSegment)}
    {more : List Nat} {m₁ : MemoryManager} (inv : TableInv reg m other live tabs)
    (content : Content m₁ (reg.pageLedger.pages.map PageRecord.page) live')
    (persisted : reg.freeSegmentsLedger.Persisted m₁)
    (updated : Updated m₁ reg.freeSegmentsLedger (fun q => q ∈ reg.ownedPages ∨ other q) more m')
    (held : FreeSegmentsLedger.Holds m' (reg.freeSegmentsLedger.tables ++ more) tabs')
    (sounds : ∀ s ∈ segments tabs', SoundSegment (RawRecord.alignment E) s)
    (fits : ∀ x ∈ live', RawRecord.footprint x.2 ≤ msizeMax)
    (layout : Layout (RawRecord.alignment E) reg.pageLedger.pages
      ((segments tabs').map (freeExtent (RawRecord.alignment E)) ++ live'.map slotExtent)) :
    TableInv { reg with freeSegmentsLedger :=
      { reg.freeSegmentsLedger with tables := reg.freeSegmentsLedger.tables ++ more } }
      m' other live' tabs' ∧ Frame other m₁ m' ∧
      SamePage m₁ m' reg.pageLedger.ledgerPage := by
  obtain ⟨_, apart⟩ := inv.nodup_parts
  have fresh : ∀ q ∈ more, q ∉ reg.ownedPages ∧ ¬ other q := by
    intro q new
    exact not_or.mp (updated.fresh q new)
  have owned : ({ reg with freeSegmentsLedger :=
      { reg.freeSegmentsLedger with tables := reg.freeSegmentsLedger.tables ++ more } } :
      TableRegistry).ownedPages.Perm (more ++ reg.ownedPages) := by
    have tail : (reg.freeSegmentsLedger.tables ++ more ++
        reg.pageLedger.pages.map PageRecord.page).Perm
        (more ++ (reg.freeSegmentsLedger.tables ++ reg.pageLedger.pages.map PageRecord.page)) := by
      rw [← List.append_assoc]
      exact List.perm_append_comm.append_right _
    refine ((tail.cons _).cons _).trans ?_
    exact (List.perm_middle.symm.cons _).trans List.perm_middle.symm
  have ledgerApart : ∀ q, other q → q ≠ reg.freeSegmentsLedger.freeSegmentsPage ∧
      q ∉ reg.freeSegmentsLedger.tables := by
    intro q others
    refine ⟨?_, fun listed => inv.separate q (table_owned listed) others⟩
    rintro rfl
    exact inv.separate _ (by simp [TableRegistry.ownedPages]) others
  have dataSame : ∀ q ∈ reg.pageLedger.pages.map PageRecord.page, SamePage m₁ m' q := by
    intro q listed
    obtain ⟨_, freeApart, tableApart⟩ := apart q listed
    exact updated.same q (.inl (data_owned listed)) freeApart tableApart
  refine ⟨⟨?_, ?_, ?_, held, sounds, fits, layout, ?_, updated.persisted persisted⟩, ⟨updated.pages_le, ?_⟩, ?_⟩
  · refine updated.supply.congr ?_
    intro q
    rw [owned.mem_iff, List.mem_append, or_assoc]
  · rw [owned.nodup_iff, List.nodup_append]
    refine ⟨?_, inv.nodup, ?_⟩
    · exact (List.nodup_append.mp held.nodup).2.1
    · rintro q new p old rfl
      exact (fresh q new).1 old
  · intro q member
    rcases List.mem_append.mp (owned.mem_iff.mp member) with new | old
    · exact (fresh q new).2
    · exact inv.separate q old
  · refine content.of_same ?_ dataSame
    intro x member
    have placed := layout.placed (slotExtent x) (List.mem_append_right _ (List.mem_map_of_mem member))
    obtain ⟨r, listed, page, _⟩ := placed.below
    exact ⟨List.mem_map.mpr ⟨r, listed, page⟩, placed.end_le, fits x member⟩
  · intro q others
    exact updated.same q (.inr others) (ledgerApart q others).1 (ledgerApart q others).2
  · have nodup := inv.nodup
    simp only [TableRegistry.ownedPages, List.nodup_cons, List.mem_cons, List.mem_append,
      not_or] at nodup
    exact updated.same _ (.inl (by simp [TableRegistry.ownedPages])) nodup.1.1 nodup.1.2.1

/-- The position a slot can have in the layout, whatever the order of the extents. -/
theorem slots_of_perm (inv : TableInv reg m other live tabs) {x : RecordAddress × E}
    {rest : List (RecordAddress × E)} (perm : live.Perm (x :: rest)) :
    Layout (RawRecord.alignment E) reg.pageLedger.pages (slotExtent x ::
      ((segments tabs).map (freeExtent (RawRecord.alignment E)) ++ rest.map slotExtent)) := by
  refine inv.layout.perm ?_
  refine ((perm.map slotExtent).append_left _).trans ?_
  exact List.perm_middle

/-- `delete` of a live record. -/
theorem delete_runs {reg' : TableRegistry} {address : RecordAddress} {e : E}
    {rest : List (RecordAddress × E)} (inv : TableInv reg m other live tabs)
    (perm : live.Perm ((address, e) :: rest)) (run : m.Runs (reg.delete e address) reg' m') :
    ∃ tabs', TableInv reg' m' other rest tabs' ∧ Frame other m m' ∧
      reg'.pageLedger = reg.pageLedger ∧ SamePage m m' reg.pageLedger.ledgerPage := by
  have member : (address, e) ∈ live := perm.mem_iff.mpr List.mem_cons_self
  have small : RawRecord.footprint e ≤ msizeMax := inv.fits _ member
  have fits : address.offset + RawRecord.footprint e ≤ pageSize := inv.slot_end member
  have layout := inv.slots_of_perm perm
  have restMember : ∀ y ∈ rest, y ∈ live := fun y h => perm.mem_iff.mpr (List.mem_cons_of_mem _ h)
  unfold TableRegistry.delete at run
  simp only [runs_bind, runs_zero, runs_pure] at run
  obtain ⟨_, _, ⟨_, _, _, rfl⟩, ledger, _, inserted, rfl, rfl⟩ := run
  rw [alignUp_encoded_size small] at inserted
  have listed : address.page ∈ reg.pageLedger.pages.map PageRecord.page := inv.slot_page member
  have inPage : address.offset + (zeros (RawRecord.footprint e)).length ≤ pageSize := by
    rwa [zeros_length]
  obtain ⟨supply₁, held₁, persisted₁, frame₁⟩ := inv.data_write listed inPage
  have content₁ := (inv.content.perm perm).erase fits
    (fun y h => ⟨inv.slot_end (restMember y h), inv.fits y (restMember y h)⟩) (by
      intro y h
      exact (List.pairwise_cons.mp layout.apart).1 _
        (List.mem_append_right _ (List.mem_map_of_mem h)))
  have freed : freeExtent (RawRecord.alignment E) ⟨address.page, address.offset,
      physicalSize (RawRecord.encoded e)⟩ = slotExtent (address, e) := by
    rw [physicalSize_encoded small]
    exact congrArg (Extent.mk address.page address.offset) (alignUp_footprint e)
  have typed : FreeSegment.Typed ⟨address.page, address.offset,
      physicalSize (RawRecord.encoded e)⟩ := by
    rw [physicalSize_encoded small]
    have alloc := (inv.supply.owned_allocated address.page (.inl (data_owned listed))).1
    have pos := footprint_pos e
    rw [pageSize_eq] at fits
    refine ⟨PageSupply.page_lt m alloc, ?_, small⟩
    change address.offset ≤ msizeMax
    unfold msizeMax
    omega
  have sound : SoundSegment (RawRecord.alignment E) ⟨address.page, address.offset,
      physicalSize (RawRecord.encoded e)⟩ := by
    rw [physicalSize_encoded small]
    exact ⟨footprint_pos e, .inl (alignUp_footprint e).symm⟩
  obtain ⟨more, tabs', rfl, updated, held', absorbed⟩ := insertFreeSegment_runs held₁ supply₁
    (fun q listed => .inl (table_owned listed)) (.inl (by simp [TableRegistry.ownedPages]))
    inv.nodup_parts.1 typed inserted
  rw [← freed] at layout
  obtain ⟨sounds', layout'⟩ :=
    absorbed.layout (RawRecord.two_le_alignment E) inv.sounds sound layout
  obtain ⟨inv', frame', ledgerSame⟩ := inv.of_updated content₁ persisted₁ updated held' sounds'
    (fun y h => inv.fits y (restMember y h)) layout'
  refine ⟨tabs', inv', frame₁.trans frame', rfl, ?_⟩
  refine SamePage.trans (samePage_writeBytes inPage ?_) ledgerSame
  exact (inv.nodup_parts.2 _ listed).1.symm

/-- A record written into a free segment. -/
theorem insert_reused {ticket : FreeSegmentTicket} {records : List FreeSegment} {e : E} {r : Unit}
    (inv : TableInv reg m other live tabs) (small : RawRecord.footprint e ≤ msizeMax)
    (table : (ticket.table, records) ∈ tabs) (listed : ticket.segment ∈ records)
    (large : (RawRecord.encoded e).size ≤ ticket.segment.size)
    (run : (m.writeBytes ticket.segment.page ticket.segment.offset
        (padded (RawRecord.encoded e))).Runs
      (reg.freeSegmentsLedger.commitReusedSpace (RawRecord.encoded e) ticket) r m') :
    ∃ tabs', TableInv reg m' other
        ((⟨ticket.segment.page, ticket.segment.offset⟩, e) :: live) tabs' ∧
      Frame other m m' ∧ SamePage m m' reg.pageLedger.ledgerPage := by
  have member : ticket.segment ∈ segments tabs := List.mem_flatMap.mpr ⟨_, table, listed⟩
  have placed := inv.layout.placed _ (List.mem_append_left _ (List.mem_map_of_mem member))
  have sound := inv.sounds _ member
  have inside : RawRecord.footprint e ≤ alignUp (RawRecord.alignment E) ticket.segment.size := by
    rw [encoded_size small] at large
    exact alignUp_mono _ large
  have segmentEnd : ticket.segment.offset +
      alignUp (RawRecord.alignment E) ticket.segment.size ≤ pageSize := placed.end_le
  obtain ⟨page, pageListed, samePage, _⟩ := placed.below
  have dataPage : ticket.segment.page ∈ reg.pageLedger.pages.map PageRecord.page :=
    List.mem_map.mpr ⟨page, pageListed, samePage⟩
  have inPage : ticket.segment.offset + (padded (RawRecord.encoded e)).length ≤ pageSize := by
    rw [padded_encoded_length small]
    omega
  obtain ⟨supply₁, held₁, persisted₁, frame₁⟩ := inv.data_write dataPage inPage
  obtain ⟨updated, tabs', rest, held', taken, left⟩ := commitReusedSpace_runs held₁ supply₁
    (fun q listed => .inl (table_owned listed)) inv.nodup_parts.1 table listed run
  rw [physicalSize_encoded small] at left
  have ordered : Layout (RawRecord.alignment E) reg.pageLedger.pages
      (freeExtent (RawRecord.alignment E) ticket.segment ::
        (rest.map (freeExtent (RawRecord.alignment E)) ++ live.map slotExtent)) :=
    inv.layout.perm ((taken.map _).append_right _)
  obtain ⟨newSounds, cutLayout⟩ := remainder_layout (RawRecord.two_le_alignment E) sound
    (footprint_pos e) (dvd_alignUp _ _) inside ordered
  have layout' : Layout (RawRecord.alignment E) reg.pageLedger.pages
      ((segments tabs').map (freeExtent (RawRecord.alignment E)) ++
        (((⟨ticket.segment.page, ticket.segment.offset⟩, e) :: live).map slotExtent)) := by
    refine cutLayout.perm ?_
    rw [← List.append_assoc, ← List.map_append]
    refine .trans ?_ List.perm_middle.symm
    exact ((left.map _).symm.append_right _).cons _
  have sounds' : ∀ s ∈ segments tabs', SoundSegment (RawRecord.alignment E) s := by
    intro s h
    rcases List.mem_append.mp (left.mem_iff.mp h) with new | old
    · exact newSounds s new
    · exact inv.sounds s (taken.mem_iff.mpr (List.mem_cons_of_mem _ old))
  have content₁ := inv.content.write (x := (⟨ticket.segment.page, ticket.segment.offset⟩, e)) small
    (show ticket.segment.offset + RawRecord.footprint e ≤ pageSize by omega)
    (fun y h => ⟨inv.slot_end h, inv.fits y h⟩) (by
      intro y h
      exact (List.pairwise_cons.mp cutLayout.apart).1 _ (List.mem_append_right _
        (List.mem_append_right _ (List.mem_map_of_mem h))))
  have fits' : ∀ x ∈ (⟨ticket.segment.page, ticket.segment.offset⟩, e) :: live,
      RawRecord.footprint x.2 ≤ msizeMax := List.forall_mem_cons.mpr ⟨small, inv.fits⟩
  have tables : FreeSegmentsLedger.Holds m' (reg.freeSegmentsLedger.tables ++ []) tabs' := by
    rwa [List.append_nil]
  obtain ⟨inv', frame', ledgerSame⟩ :=
    inv.of_updated content₁ persisted₁ updated tables sounds' fits' layout'
  rw [List.append_nil] at inv'
  refine ⟨tabs', inv', frame₁.trans frame', SamePage.trans (samePage_writeBytes inPage ?_) ledgerSame⟩
  exact (inv.nodup_parts.2 _ dataPage).1.symm

/-- A claimed page joins the table. -/
theorem add_page {page : Nat} (inv : TableInv reg m other live tabs)
    (claim : PageSupply.Claimed m (fun q => q ∈ reg.ownedPages ∨ other q) page m') :
    TableInv { reg with pageLedger :=
        { reg.pageLedger with pages := reg.pageLedger.pages ++ [⟨page, pageSize⟩] } }
      m' other live tabs ∧ Frame other m m' ∧
      ∀ q ∈ reg.ownedPages, SamePage m m' q := by
  obtain ⟨notOwned, notOther⟩ := not_or.mp claim.fresh
  have owned : ({ reg with pageLedger :=
      { reg.pageLedger with pages := reg.pageLedger.pages ++ [⟨page, pageSize⟩] } } :
      TableRegistry).ownedPages.Perm (page :: reg.ownedPages) := by
    refine .trans ?_ (List.perm_append_singleton page reg.ownedPages)
    simp [TableRegistry.ownedPages]
  have same : ∀ q, q ∈ reg.ownedPages ∨ other q → SamePage m m' q := fun q h =>
    claim.same q (inv.supply.owned_allocated q h).1 (inv.supply.owned_allocated q h).2
  have newPage : page ∉ reg.pageLedger.pages.map PageRecord.page :=
    fun h => notOwned (data_owned h)
  refine ⟨⟨?_, ?_, ?_, inv.held.of_same ?_, inv.sounds, inv.fits, inv.layout.addPage newPage, ?_, ?_⟩,
    ⟨claim.pages_le, fun q h => same q (.inr h)⟩, fun q h => same q (.inl h)⟩
  · refine claim.supply.congr ?_
    intro q
    rw [owned.mem_iff, List.mem_cons, or_assoc]
  · rw [owned.nodup_iff]
    exact List.nodup_cons.mpr ⟨notOwned, inv.nodup⟩
  · intro q h
    rcases List.mem_cons.mp (owned.mem_iff.mp h) with rfl | old
    · exact notOther
    · exact inv.separate q old
  · intro q listed
    exact same q (.inl (table_owned listed))
  · rw [List.map_append]
    refine Content.addPage ?_ claim.zero
    refine inv.content.of_same ?_ (fun q listed => same q (.inl (data_owned listed)))
    intro x h
    exact ⟨inv.slot_page h, inv.slot_end h, inv.fits x h⟩
  · exact inv.persisted.of_same (same _ (.inl (by simp [TableRegistry.ownedPages])))

/-- A record written at the end of a page, and the page ledger brought up to date. -/
theorem insert_atEnd {page offset : Nat} {e : E} {ledger' : PageLedger} {r : PageRecord}
    (inv : TableInv reg m other live tabs) (small : RawRecord.footprint e ≤ msizeMax)
    (listed : r ∈ reg.pageLedger.pages) (rPage : r.page = page) (position : offset = pageSize - r.free)
    (room : RawRecord.footprint e ≤ r.free)
    (run : (m.writeBytes page offset (padded (RawRecord.encoded e))).Runs
      (reg.pageLedger.commit page (RawRecord.encoded e)) ledger' m') :
    TableInv { reg with pageLedger := ledger' } m' other ((⟨page, offset⟩, e) :: live) tabs ∧
      Frame other m m' ∧ ledger'.Persisted m' := by
  have mark := (inv.layout.marks r listed).1
  have dataPage : page ∈ reg.pageLedger.pages.map PageRecord.page :=
    List.mem_map.mpr ⟨r, listed, rPage⟩
  have inPage : offset + (padded (RawRecord.encoded e)).length ≤ pageSize := by
    rw [padded_encoded_length small]
    omega
  obtain ⟨supply₁, held₁, persisted₁, frame₁⟩ := inv.data_write dataPage inPage
  obtain ⟨before, r', after, split, page', rfl, written, pages, same⟩ := PageLedger.commit_runs run
  obtain rfl : r' = r := List.inj_on_of_nodup_map inv.layout.nodup
    (by rw [split]; simp) listed (page'.trans rPage.symm)
  subst rPage
  subst position
  rw [alignUp_encoded_size small] at written ⊢
  have layoutAt := inv.layout
  rw [split] at layoutAt
  have layout' := layoutAt.takeEnd (footprint_pos e) (dvd_alignUp _ _) room
  have numbers : (before ++ { r' with free := r'.free - RawRecord.footprint e } :: after).map
      PageRecord.page = reg.pageLedger.pages.map PageRecord.page := by
    rw [split]
    simp
  have content₁ := inv.content.write (x := (⟨r'.page, pageSize - r'.free⟩, e)) small
    (show pageSize - r'.free + RawRecord.footprint e ≤ pageSize by omega)
    (fun y h => ⟨inv.slot_end h, inv.fits y h⟩) (by
      intro y h
      exact (List.pairwise_cons.mp layout'.apart).1 _ (List.mem_append_right _
        (List.mem_map_of_mem h)))
  have nodup := inv.nodup
  simp only [TableRegistry.ownedPages, List.nodup_cons, List.mem_cons, List.mem_append, not_or] at nodup
  have slots : ∀ x ∈ (⟨r'.page, pageSize - r'.free⟩, e) :: live,
      x.1.page ∈ reg.pageLedger.pages.map PageRecord.page ∧
      x.1.offset + RawRecord.footprint x.2 ≤ pageSize ∧ RawRecord.footprint x.2 ≤ msizeMax := by
    rw [List.forall_mem_cons]
    exact ⟨⟨dataPage, by change pageSize - r'.free + RawRecord.footprint e ≤ pageSize; omega, small⟩,
      fun x h => ⟨inv.slot_page h, inv.slot_end h, inv.fits x h⟩⟩
  have ownedSame : ({ reg with pageLedger := { reg.pageLedger with pages :=
      before ++ { r' with free := r'.free - RawRecord.footprint e } :: after } } :
      TableRegistry).ownedPages = reg.ownedPages := by
    simp only [TableRegistry.ownedPages, numbers]
  refine ⟨⟨?_, ?_, ?_, ?_, inv.sounds, List.forall_mem_cons.mpr ⟨small, inv.fits⟩, ?_, ?_, ?_⟩, ?_, written⟩
  · rw [ownedSame]
    refine supply₁.of_same pages ?_
    intro q free
    exact same q (fun h => free (.inl (by rw [h]; simp [TableRegistry.ownedPages])))
  · rw [ownedSame]
    exact inv.nodup
  · rw [ownedSame]
    exact inv.separate
  · refine held₁.of_same ?_
    intro q inTables
    exact same q (fun h => nodup.1.2.1 (h ▸ inTables))
  · exact layout'.perm List.perm_middle.symm
  · rw [numbers]
    exact content₁.of_same slots (fun q inData => same q (inv.nodup_parts.2 q inData).1)
  · exact persisted₁.of_same (same _ (Ne.symm nodup.1.1))
  · refine frame₁.trans ⟨Nat.le_of_eq pages.symm, ?_⟩
    intro q others
    refine same q ?_
    rintro rfl
    exact inv.separate _ (by simp [TableRegistry.ownedPages]) others

/-- An aligned offset below the page end is its own `align_up`, as a `u16`. -/
theorem aligned_offset {a offset size : Nat} (pos : 0 < a) (dvd : a ∣ offset) (filled : 0 < size)
    (fits : offset + size ≤ pageSize) : alignUp a offset % (msizeMax + 1) = offset := by
  rw [alignUp_of_dvd pos dvd, Nat.mod_eq_of_lt]
  rw [pageSize_eq] at fits
  unfold msizeMax
  omega

theorem insert_runs {reg' : TableRegistry} {address : RecordAddress} {e : E}
    (inv : TableInv reg m other live tabs) (run : m.Runs (reg.insert e) (address, reg') m') :
    (∃ tabs', TableInv reg' m' other ((address, e) :: live) tabs') ∧ Frame other m m' ∧
      (reg.pageLedger.Persisted m → reg'.pageLedger.Persisted m') := by
  unfold TableRegistry.insert at run
  simp only [runs_bind] at run
  obtain ⟨_, _, checked, ⟨writeAt, reg₁⟩, m₁, found, _, m₂, written, reg₂, m₃, post, result⟩ := run
  simp only [runs_pure, Prod.mk.injEq] at result
  obtain ⟨⟨rfl, rfl⟩, rfl⟩ := result
  obtain ⟨rfl, small⟩ := runs_ensureRecordFits.mp checked
  obtain ⟨_, _, _, rfl⟩ := runs_writeAt.mp written
  unfold TableRegistry.getWritePosition at found
  simp only [runs_bind] at found
  obtain ⟨ticket, m₀, searched, rest⟩ := found
  obtain ⟨rfl, origin⟩ := findReusableSegment_runs inv.held searched
  have alignPos := (RawRecord.encoded e).alignment_pos
  cases ticket with
  | some ticket =>
      simp only [runs_pure, Prod.mk.injEq] at rest
      obtain ⟨⟨rfl, rfl⟩, rfl⟩ := rest
      obtain ⟨records, table, listed, large⟩ := origin ticket rfl
      have member : ticket.segment ∈ segments tabs := List.mem_flatMap.mpr ⟨_, table, listed⟩
      have placed := inv.layout.placed _ (List.mem_append_left _ (List.mem_map_of_mem member))
      have offset : alignUp (RawRecord.alignment E) (WriteAt.reusedSegment ticket).offset %
          (msizeMax + 1) = ticket.segment.offset :=
        aligned_offset alignPos placed.start_dvd placed.pos placed.end_le
      rw [offset] at post ⊢
      simp only [TableRegistry.postWrite, runs_bind, runs_pure] at post
      obtain ⟨_, _, committed, rfl, rfl⟩ := post
      obtain ⟨tabs', inv', frame, ledgerSame⟩ := inv.insert_reused small table listed large committed
      exact ⟨⟨tabs', inv'⟩, frame, fun persisted => persisted.of_same ledgerSame⟩
  | none =>
      simp only [runs_bind, runs_pure] at rest
      obtain ⟨⟨⟨page, offset⟩, ledger₁⟩, _, positioned, result, rfl⟩ := rest
      simp only [Prod.mk.injEq] at result
      obtain ⟨rfl, rfl⟩ := result
      simp only [TableRegistry.postWrite, runs_bind, runs_pure] at post
      obtain ⟨ledger', _, committed, rfl, rfl⟩ := post
      rcases PageLedger.getPageAndOffsetForRecord_runs positioned with
        ⟨r, listed, rfl, rfl, room, rfl, rfl⟩ | ⟨claimed, rfl, room, rfl⟩
      · obtain ⟨mark, markDvd⟩ := inv.layout.marks r listed
        rw [alignUp_encoded_size small] at room
        have filled := footprint_pos e
        have cast : (pageSize - r.free) % (msizeMax + 1) = pageSize - r.free := by
          rw [← aligned_offset alignPos markDvd filled room, Nat.mod_mod]
        have offset : alignUp (RawRecord.alignment E)
            (WriteAt.atEnd r.page ((pageSize - r.free) % (msizeMax + 1))).offset % (msizeMax + 1) =
            pageSize - r.free := by
          rw [cast]
          exact aligned_offset alignPos markDvd filled room
        rw [offset] at committed ⊢
        obtain ⟨inv', frame, persisted'⟩ :=
          inv.insert_atEnd small listed rfl rfl (by omega) committed
        exact ⟨⟨tabs, inv'⟩, frame, fun _ => persisted'⟩
      · have claim := PageSupply.claimPage_runs inv.supply claimed
        obtain ⟨inv₁, frame₁, _⟩ := inv.add_page claim
        rw [alignUp_encoded_size small] at room
        have offset : alignUp (RawRecord.alignment E) (WriteAt.atEnd page 0).offset %
            (msizeMax + 1) = 0 :=
          aligned_offset alignPos (Nat.dvd_zero _) (footprint_pos e)
            (show 0 + RawRecord.footprint e ≤ pageSize by omega)
        rw [offset] at committed ⊢
        obtain ⟨inv', frame, persisted'⟩ := inv₁.insert_atEnd small
          (List.mem_append_right _ List.mem_cons_self) rfl (Nat.sub_self _).symm room committed
        exact ⟨⟨tabs, inv'⟩, frame₁.trans frame, fun _ => persisted'⟩

theorem footprint_congr {e e' : E} (same : Encode.size e = Encode.size e') :
    RawRecord.footprint e = RawRecord.footprint e' := by
  unfold RawRecord.footprint
  rw [same]

/-- A record overwritten by one of the same size. -/
theorem overwrite {address : RecordAddress} {e e' : E} {rest : List (RecordAddress × E)}
    (inv : TableInv reg m other live tabs) (perm : live.Perm ((address, e) :: rest))
    (size : Encode.size e' = Encode.size e) :
    TableInv reg (m.writeBytes address.page address.offset (padded (RawRecord.encoded e')))
      other ((address, e') :: rest) tabs ∧
      Frame other m (m.writeBytes address.page address.offset (padded (RawRecord.encoded e'))) ∧
      SamePage m (m.writeBytes address.page address.offset (padded (RawRecord.encoded e')))
        reg.pageLedger.ledgerPage := by
  have member : (address, e) ∈ live := perm.mem_iff.mpr List.mem_cons_self
  have print := footprint_congr size
  have small : RawRecord.footprint e ≤ msizeMax := inv.fits _ member
  have small' : RawRecord.footprint e' ≤ msizeMax := by rwa [print]
  have fits : address.offset + RawRecord.footprint e ≤ pageSize := inv.slot_end member
  have layout := inv.slots_of_perm perm
  have listed : address.page ∈ reg.pageLedger.pages.map PageRecord.page := inv.slot_page member
  have restMember : ∀ y ∈ rest, y ∈ live := fun y h => perm.mem_iff.mpr (List.mem_cons_of_mem _ h)
  have ends : ∀ y ∈ rest, y.1.offset + RawRecord.footprint y.2 ≤ pageSize ∧
      RawRecord.footprint y.2 ≤ msizeMax :=
    fun y h => ⟨inv.slot_end (restMember y h), inv.fits y (restMember y h)⟩
  have apart : ∀ y ∈ rest, Apart (slotExtent (address, e)) (slotExtent y) := fun y h =>
    (List.pairwise_cons.mp layout.apart).1 _ (List.mem_append_right _ (List.mem_map_of_mem h))
  have slot : slotExtent (address, e') = slotExtent (address, e) :=
    congrArg (Extent.mk address.page address.offset) print
  have inPage : address.offset + (padded (RawRecord.encoded e')).length ≤ pageSize := by
    rw [padded_encoded_length small', print]
    exact fits
  obtain ⟨supply₁, held₁, persisted₁, frame₁⟩ := inv.data_write listed inPage
  -- the same bytes as zeroing the slot first
  have erased := (inv.content.perm perm).erase fits ends apart
  have content₁ := erased.write (x := (address, e')) small' (by rw [print]; exact fits) ends
    (by rw [slot]; exact apart)
  rw [writeBytes_over (by rw [zeros_length, padded_encoded_length small', print])] at content₁
  refine ⟨⟨supply₁, inv.nodup, inv.separate, held₁, inv.sounds, ?_, ?_, content₁, persisted₁⟩, frame₁,
    samePage_writeBytes inPage (inv.nodup_parts.2 _ listed).1.symm⟩
  · rw [List.forall_mem_cons]
    exact ⟨small', fun y h => inv.fits y (restMember y h)⟩
  · rw [List.map_cons, slot]
    exact layout.perm List.perm_middle.symm

theorem update_runs {reg' : TableRegistry} {address address' : RecordAddress} {e e' : E}
    {rest : List (RecordAddress × E)} (inv : TableInv reg m other live tabs)
    (perm : live.Perm ((address, e) :: rest))
    (run : m.Runs (reg.update e' e address) (address', reg') m') :
    (∃ tabs', TableInv reg' m' other ((address', e') :: rest) tabs') ∧ Frame other m m' ∧
      (reg.pageLedger.Persisted m → reg'.pageLedger.Persisted m') := by
  unfold TableRegistry.update at run
  simp only [runs_bind] at run
  obtain ⟨_, _, checked, run⟩ := run
  obtain ⟨rfl, _⟩ := runs_ensureRecordFits.mp checked
  split at run
  · rename_i size
    unfold TableRegistry.updateInPlace at run
    simp only [runs_bind, runs_writeAt, runs_pure, Prod.mk.injEq] at run
    obtain ⟨_, _, ⟨_, _, _, rfl⟩, ⟨rfl, rfl⟩, rfl⟩ := run
    obtain ⟨inv', frame, ledgerSame⟩ := inv.overwrite perm size
    exact ⟨⟨tabs, inv'⟩, frame, fun persisted => persisted.of_same ledgerSame⟩
  · unfold TableRegistry.updateByRealloc at run
    simp only [runs_bind] at run
    obtain ⟨reg₁, m₁, deleted, inserted⟩ := run
    obtain ⟨tabs₁, inv₁, frame₁, ledger, ledgerSame⟩ := inv.delete_runs perm deleted
    obtain ⟨inv', frame', persisted'⟩ := inv₁.insert_runs inserted
    refine ⟨inv', frame₁.trans frame', fun persisted => persisted' ?_⟩
    rw [ledger]
    exact persisted.of_same ledgerSame

end TableInv

end WasmDbms
