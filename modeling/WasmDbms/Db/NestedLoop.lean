import WasmDbms.Db.IndexSelect
import WasmDbms.Db.Join

/-!
# The nested-loop join

What a query with joins stands for: the clauses join whole tables by the values of
their columns. The engine returns what the nested loops return.
-/
namespace WasmDbms
open Result HashJoin

variable {J F : Type}

/-! ## The specification -/

/-- NULL keys never match. -/
def joinKey (value : Option (Value J)) : Option (Value J) := value.filter fun value => !value.isNull

/-- The value of a column of a table in a joined row. -/
def groupValue (reference : String × String) (groups : Groups J) : Option (Value J) :=
  (groups.find? fun group => group.1 == reference.1).bind fun group => findColumn reference.2 group.2

section Specification
variable [LinearOrder J]

/-- The row has the value of the left column in its right column. -/
def joinsRow (reference : String × String) (rightColumn : String) (groups : Groups J) (row : Row J) : Bool :=
  match joinKey (groupValue reference groups), joinKey (findColumn rightColumn row) with
  | some left, some right => left = right
  | _, _ => false

/-- One clause over the rows joined so far and a table. -/
def nestedLoopClause (fromTable : String) (join : Join) (tables : List (String × List ColumnDef))
    (listing : JoinSide J) (left : List (Groups J)) : List (Groups J) :=
  nestedLoop
    (joinsRow (resolveColumnRef join.leftColumn fromTable) (resolveColumnRef join.rightColumn join.table).2)
    (fun groups row => groups ++ [(listing.table, row.getD (nullRow listing.columns))])
    (fun row => tables.map (fun table => (table.1, nullRow table.2)) ++ [(listing.table, row)])
    join.joinType.keepUnmatchedLeft join.joinType.keepUnmatchedRight left listing.rows

def nestedLoops (fromTable : String) : List (Join × JoinSide J) → List (String × List ColumnDef) →
    List (Groups J) → List (Groups J)
  | [], _, rows => rows
  | (join, listing) :: rest, tables, rows =>
      nestedLoops fromTable rest (tables ++ [(listing.table, listing.columns)])
        (nestedLoopClause fromTable join tables listing rows)

/-- The selected values of a joined row. -/
def projectGroups (selected : Option (List String)) (tables : List (String × List ColumnDef)) (groups : Groups J) :
    List (Value J) :=
  (tables.zip groups).flatMap fun table =>
    (table.1.2.filter (isSelected selected table.1.1)).map fun column => (findColumn column.name table.2.2).getD .null

/-- The result of a query over whole tables, each with its rows in some order. -/
def nestedLoopJoin (P : Predicates J F) (query : JoinQuery J F) (source : JoinSide J)
    (joined : List (Join × JoinSide J)) : Except (Failure J) (JoinResultSet J) := do
  let tables := (source.table, source.columns) :: joined.map fun join => (join.2.table, join.2.columns)
  let rows := nestedLoops source.table joined [(source.table, source.columns)]
    (source.rows.map fun row => [(source.table, row)])
  let rows ← finishJoin id P query rows
  return ⟨query.resultColumns tables, rows.map (projectGroups query.columns tables)⟩

end Specification

/-! ## Positions and names -/

/-- Rows that list the columns, which have distinct names. -/
structure JoinSide.Ordered (side : JoinSide J) : Prop where
  names : (side.columns.map ColumnDef.name).Nodup
  rows : ∀ row ∈ side.rows, row.map Prod.fst = side.columns

/-- The references point to rows of their sides. -/
abbrev RowRef.Valid (sides : List (JoinSide J)) (row : RowRef) : Prop :=
  List.Forall₂ (fun side index => ∀ n, index = some n → n < side.rows.length) sides row

section Positions
variable {columns : List ColumnDef} {row : Row J}

theorem findColumn_position (listed : row.map Prod.fst = columns) (column : String) :
    findColumn column row = (columnPosition columns column).bind fun position => row[position]?.map Prod.snd := by
  subst listed
  induction row with
  | nil => rfl
  | cons entry rest ih =>
      unfold findColumn columnPosition at ih ⊢
      rw [List.map_cons, List.find?_cons, List.findIdx?_cons]
      cases here : entry.1.name == column with
      | true => rfl
      | false =>
          rw [ih]
          cases (rest.map Prod.fst).findIdx? fun definition => definition.name == column <;> rfl

/-- A key is the same by its position and by its name. -/
theorem keyAt_position (listed : row.map Prod.fst = columns) (column : String) :
    ((columnPosition columns column).bind fun position => keyAt position row) = joinKey (findColumn column row) := by
  rw [findColumn_position listed]
  cases columnPosition columns column <;> rfl

theorem joinKey_nullRow (column : String) : joinKey (findColumn column (nullRow columns : Row J)) = none := by
  cases found : findColumn column (nullRow columns : Row J) with
  | none => rfl
  | some value =>
      obtain ⟨entry, member, _, rfl⟩ := mem_of_findColumn found
      obtain ⟨definition, _, rfl⟩ := List.mem_map.mp member
      rfl

end Positions

section Sides
variable {side : JoinSide J} {sides : List (JoinSide J)} {row : RowRef}

theorem JoinSide.row_mem {index : ℕ} (short : index < side.rows.length) : side.row (some index) ∈ side.rows := by
  rw [JoinSide.row, List.getD_eq_getElem _ _ short]
  exact List.getElem_mem short

theorem leftKey_cons (table column : String) :
    leftKey (side :: sides) table column =
      if side.table = table then (columnPosition side.columns column).map fun position => (0, position)
      else (leftKey sides table column).map fun key => (key.1 + 1, key.2) := by
  unfold leftKey
  rw [List.findIdx?_cons]
  by_cases here : side.table = table
  · rw [if_pos here, if_pos (beq_iff_eq.mpr here)]
    cases position : columnPosition side.columns column <;> simp [position]
  · rw [if_neg here, if_neg (by simpa using here)]
    cases found : sides.findIdx? fun side => side.table == table with
    | none => rfl
    | some index =>
        simp only [Option.map_some, Option.bind_eq_bind, Option.bind_some, List.getElem?_cons_succ]
        cases at_ : sides[index]? with
        | none => rfl
        | some other =>
            cases position : columnPosition other.columns column <;> simp [position]

/-- The key of a joined row is the value of its column. -/
theorem leftValue_eq (ordered : ∀ side ∈ sides, side.Ordered) (valid : row.Valid sides) (table column : String) :
    leftValue sides (leftKey sides table column) row = joinKey (groupValue (table, column) (rowGroups sides row)) := by
  induction valid with
  | nil => rfl
  | cons inRange valid ih =>
      rename_i side index sides row
      rw [List.forall_mem_cons] at ordered
      rw [leftKey_cons, groupValue, rowGroups, List.zipWith_cons_cons, List.find?_cons]
      by_cases here : side.table = table
      · rw [if_pos here, beq_iff_eq.mpr here]
        dsimp only [Option.bind_some]
        cases index with
        | none =>
            rw [JoinSide.row, joinKey_nullRow]
            cases columnPosition side.columns column <;> rfl
        | some n =>
            have listed := ordered.1.rows _ (JoinSide.row_mem (inRange n rfl))
            rw [← keyAt_position listed]
            cases columnPosition side.columns column <;> rfl
      · rw [if_neg here, beq_eq_false_iff_ne.mpr here]
        have rest := ih ordered.2
        rw [groupValue] at rest
        dsimp only
        rw [← rowGroups, ← rest]
        cases leftKey sides table column <;> rfl

theorem rowGroups_append {rightSide : JoinSide J} (valid : row.Valid sides) (index : Option ℕ) :
    rowGroups (sides ++ [rightSide]) (row ++ [index]) =
      rowGroups sides row ++ [(rightSide.table, rightSide.row index)] := by
  unfold rowGroups
  exact List.zipWith_append valid.length_eq

theorem rowGroups_none : rowGroups sides (List.replicate sides.length none) =
    sides.map fun side => (side.table, nullRow side.columns) := by
  induction sides with
  | nil => rfl
  | cons side rest ih => exact congrArg ((side.table, nullRow side.columns) :: ·) ih

theorem valid_none : RowRef.Valid sides (List.replicate sides.length none) := by
  induction sides with
  | nil => exact .nil
  | cons side rest ih => exact .cons (fun n same => by cases same) ih

end Sides

/-! ## The hash join -/

section Clause
variable [LinearOrder J] {sides : List (JoinSide J)} {rows : List RowRef} {rightSide : JoinSide J}

/-- The row has the key of the reference. -/
def joinsIndex (sides : List (JoinSide J)) (key : Option KeyPosition) (rightSide : JoinSide J) (rightColumn : String)
    (row : RowRef) (index : ℕ) : Bool :=
  match leftValue sides key row, joinKey (findColumn rightColumn (rightSide.rows.getD index [])) with
  | some left, some right => left = right
  | _, _ => false

/-- Probing the hash table finds the indexes the row joins. -/
theorem probe_eq (ordered : rightSide.Ordered) (key : Option KeyPosition) (rightColumn : String) (row : RowRef) :
    probe sides key (buildIndexes rightSide rightColumn) row =
      if ((List.range rightSide.rows.length).filter (joinsIndex sides key rightSide rightColumn row)).isEmpty then none
      else some ((List.range rightSide.rows.length).filter (joinsIndex sides key rightSide rightColumn row)) := by
  have listed : ∀ index ∈ List.range rightSide.rows.length,
      (rightSide.rows.getD index []).map Prod.fst = rightSide.columns := by
    intro index short
    rw [List.getD_eq_getElem _ _ (List.mem_range.mp short)]
    exact ordered.rows _ (List.getElem_mem _)
  unfold probe buildIndexes
  cases left : leftValue sides key row with
  | none =>
      have alone : (List.range rightSide.rows.length).filter (joinsIndex sides key rightSide rightColumn row) = [] := by
        refine List.filter_eq_nil_iff.mpr fun index _ => ?_
        rw [joinsIndex, left]
        exact Bool.false_ne_true
      rw [alone]
      rfl
  | some value =>
      have joined : ∀ index, joinsIndex sides key rightSide rightColumn row index =
          decide (joinKey (findColumn rightColumn (rightSide.rows.getD index [])) = some value) := by
        intro index
        rw [joinsIndex, left]
        cases joinKey (findColumn rightColumn (rightSide.rows.getD index [])) with
        | none => rfl
        | some right => simp [eq_comm]
      have hits : (List.range rightSide.rows.length).filter (joinsIndex sides key rightSide rightColumn row) =
          (List.range rightSide.rows.length).filter fun index =>
            ((columnPosition rightSide.columns rightColumn).bind fun column =>
              keyAt column (rightSide.rows.getD index [])) = some value := by
        refine List.filter_congr fun index short => ?_
        rw [joined, keyAt_position (listed index short)]
      rw [hits, Option.bind_some]
      cases columnPosition rightSide.columns rightColumn with
      | none => simp [HashJoin.lookup]
      | some column => exact lookup_build _ _ _

/-- A hash join is a nested loop over the indexes. -/
theorem hashJoin_nestedLoop (ordered : rightSide.Ordered) (key : Option KeyPosition) (rightColumn : String)
    (keepLeft keepRight : Bool) :
    hashJoin sides rows key rightSide rightColumn keepLeft keepRight =
      nestedLoop (joinsIndex sides key rightSide rightColumn) (fun row index => row ++ [index])
        (fun index => List.replicate sides.length none ++ [some index]) keepLeft keepRight rows
        (List.range rightSide.rows.length) := by
  unfold hashJoin nestedLoop
  dsimp only
  refine congrArg₂ (· ++ ·) (List.flatMap_congr fun row _ => ?_) ?_
  · rw [probe_eq ordered]
    unfold matched
    cases (List.range rightSide.rows.length).filter (joinsIndex sides key rightSide rightColumn row) <;> rfl
  · cases keepRight with
    | false => rfl
    | true =>
        refine congrArg (List.map _) (List.filter_congr fun index short => congrArg (!·) ?_)
        refine congrArg rows.any (funext fun row => ?_)
        rw [probe_eq ordered]
        split
        next empty =>
          have none_ := List.filter_eq_nil_iff.mp (List.isEmpty_iff.mp empty) index short
          exact (Bool.eq_false_iff.mpr none_).symm
        next => simp [List.mem_range.mp short]

omit [LinearOrder J] in
theorem map_getD_range (rows : List (Row J)) : (List.range rows.length).map (fun index => rows.getD index []) = rows := by
  refine List.ext_getElem (by simp) fun index short _ => ?_
  rw [List.getElem_map, List.getElem_range, List.getD_eq_getElem]

/-- The joined rows of a hash join are those of the nested loop over the values. -/
theorem hashJoin_groups (ordered : ∀ side ∈ sides, side.Ordered) (right : rightSide.Ordered)
    (valid : ∀ row ∈ rows, row.Valid sides) (fromTable : String) (join : Join) :
    (hashJoin sides rows (leftKey sides (resolveColumnRef join.leftColumn fromTable).1
        (resolveColumnRef join.leftColumn fromTable).2) rightSide (resolveColumnRef join.rightColumn join.table).2
        join.joinType.keepUnmatchedLeft join.joinType.keepUnmatchedRight).map (rowGroups (sides ++ [rightSide])) =
      nestedLoopClause fromTable join (sides.map fun side => (side.table, side.columns)) rightSide
        (rows.map (rowGroups sides)) := by
  rw [hashJoin_nestedLoop right, nestedLoopClause]
  conv_rhs => rw [← map_getD_range rightSide.rows]
  refine nestedLoop_map ?_ ?_ ?_ ?_
  · intro row member index _
    rw [joinsRow, joinsIndex, leftValue_eq ordered (valid row member)]
  · intro row member index _
    exact rowGroups_append (valid row member) (some index)
  · intro row member
    exact rowGroups_append (valid row member) none
  · intro index _
    rw [rowGroups_append valid_none, rowGroups_none, List.map_map]
    rfl

theorem hashJoin_valid (right : rightSide.Ordered) (valid : ∀ row ∈ rows, row.Valid sides) (key : Option KeyPosition)
    (rightColumn : String) (keepLeft keepRight : Bool) :
    ∀ row ∈ hashJoin sides rows key rightSide rightColumn keepLeft keepRight, row.Valid (sides ++ [rightSide]) := by
  intro row member
  rw [hashJoin_nestedLoop right] at member
  have last : ∀ index < rightSide.rows.length, ∀ n, some index = some n → n < rightSide.rows.length :=
    fun index short n same => Option.some.inj same ▸ short
  rcases mem_nestedLoop member with ⟨left, listed, index, short, rfl⟩ | ⟨left, listed, rfl⟩ | ⟨index, short, rfl⟩
  · exact List.rel_append (valid left listed) (.cons (last index (List.mem_range.mp short)) .nil)
  · exact List.rel_append (valid left listed) (.cons (fun n same => by cases same) .nil)
  · exact List.rel_append valid_none (.cons (last index (List.mem_range.mp short)) .nil)

end Clause

/-! ## The rows that are loaded -/

/-- The rows of a table, with the changes of the transaction. -/
def visibleRows (tx : Option (Transaction J F)) (s : DbState J) (t : TableDef J) [LinearOrder J] : List (Row J) :=
  overlayReader (tx.map fun tx => tx.overlay t.name) ((s t.name).rows.map Prod.snd)

/-- The records have distinct addresses, and in a transaction distinct primary keys. -/
structure ReadsTable [LinearOrder J] (tx : Option (Transaction J F)) (s : DbState J) (t : TableDef J) : Prop where
  addresses : ((s t.name).rows.map Prod.fst).Nodup
  keys : tx.isSome → ((visibleRows tx s t).map fun row => findColumn t.primaryKey row).Nodup
  columns : ∀ row ∈ visibleRows tx s t, row.map Prod.fst = t.columns

section Loaded
variable [LinearOrder J] (db : Database J F) {tx : Option (Transaction J F)} {s : DbState J} {t : TableDef J}

variable {db} in
theorem takePage_all {filter : Option (Filter J F)} {rows : List (Row J)} :
    db.takePage filter 0 none rows = db.selectMatching filter rows := by
  induction rows with
  | nil => rfl
  | cons row rest ih =>
      rw [Database.takePage, Database.selectMatching, ih]
      cases db.recordMatchesFilter row filter with
      | error e => rfl
      | ok keep =>
          cases keep with
          | true => rfl
          | false =>
              dsimp only [bind, Except.bind]
              cases db.selectMatching filter rest <;> rfl

variable {db} in
theorem selectColumns_all : db.selectColumns tx s t .all = .ok (db.visited tx s t none) := by
  have whole : db.takePage none 0 none (db.visited tx s t none) = .ok (db.visited tx s t none) :=
    takePage_all.trans selectMatching_none
  unfold Database.selectColumns
  change (db.takePage none 0 none (db.visited tx s t none) >>= fun results => _) = _
  rw [whole]
  rfl

variable {db} in
theorem selectColumns_matching {filter : Filter J F} {test : Row J → Bool}
    (total : ∀ row, filter.matches db.predicates row = .ok (test row)) :
    db.selectColumns tx s t (.matching filter) = .ok ((db.visited tx s t (some filter)).filter test) := by
  have whole : db.takePage (some filter) 0 none (db.visited tx s t (some filter)) =
      .ok ((db.visited tx s t (some filter)).filter test) := takePage_all.trans (selectMatching_eq fun row _ => total row)
  unfold Database.selectColumns
  change (db.takePage (some filter) 0 none (db.visited tx s t (some filter)) >>= fun results => _) = _
  rw [whole]
  rfl

/-- The rows an access path visits hold all that match. -/
theorem visited_perm (readable : ReadsTable tx s t) {filter : Option (Filter J F)} {test : Row J → Bool}
    (accepts : ∀ row, test row = true → ∀ f, filter = some f → f.matches db.predicates row = .ok true) :
    ((db.visited tx s t filter).filter test).Perm ((visibleRows tx s t).filter test) := by
  cases tx with
  | none =>
      have nodup : (s t.name).rows.Nodup := .of_map _ readable.addresses
      change (((db.access t filter (s t.name).rows).map Prod.snd).filter test).Perm
        (((s t.name).rows.map Prod.snd).filter test)
      rw [List.filter_map, List.filter_map]
      refine List.Perm.map _ ((List.perm_ext_iff_of_nodup ((Database.access_nodup nodup).filter _)
        (nodup.filter _)).mpr fun x => ?_)
      rw [List.mem_filter, List.mem_filter]
      refine and_congr_left fun passes => ⟨Database.mem_access, fun listed => ?_⟩
      exact db.covers t filter _ x listed (accepts x.2 passes)
  | some tx =>
      have keys := readable.keys rfl
      have nodup : (visibleRows (some tx) s t).Nodup := .of_map _ keys
      obtain ⟨visits, all⟩ := db.visitAll t filter (s t.name).rows (tx.overlay t.name) keys
      have visitedNodup : (db.visited (some tx) s t filter).Nodup := by
        obtain ⟨l, perm, sub⟩ := visits
        exact perm.nodup_iff.mp (nodup.sublist sub)
      refine (List.perm_ext_iff_of_nodup (visitedNodup.filter _) (nodup.filter _)).mpr fun row => ?_
      rw [List.mem_filter, List.mem_filter]
      refine and_congr_left fun passes => ⟨fun member => visits.subset member, fun member => ?_⟩
      exact all row member (accepts row passes)

theorem select_all_perm (readable : ReadsTable tx s t) : (db.visited tx s t none).Perm (visibleRows tx s t) := by
  have perm : ((db.visited tx s t none).filter fun _ => true).Perm _ :=
    visited_perm db readable fun _ _ _ none_ => by cases none_
  rwa [List.filter_true, List.filter_true] at perm

omit [LinearOrder J] in
/-- The loaded rows are those of some order of the whole table. -/
theorem exists_listing {full loaded : List (Row J)} {test : Row J → Bool} (perm : loaded.Perm (full.filter test)) :
    ∃ listing : List (Row J), listing.Perm full ∧ listing.filter test = loaded := by
  refine ⟨loaded ++ full.filter fun row => !test row, ?_, ?_⟩
  · exact (perm.append_right _).trans (List.filter_append_perm test full)
  · have accepted : loaded.filter test = loaded := List.filter_eq_self.mpr fun row member =>
      (List.mem_filter.mp (perm.mem_iff.mp member)).2
    have rejected : (full.filter fun row => !test row).filter test = [] :=
      List.filter_eq_nil_iff.mpr fun row member passes => by
        have fails := (List.mem_filter.mp member).2
        rw [passes] at fails
        cases fails
    rw [List.filter_append, accepted, rejected, List.append_nil]

omit [LinearOrder J] in
theorem anyColumn_of_find {column : String} {test : Value J → Bool} {row : Row J} {value : Value J}
    (found : findColumn column row = some value) (passes : test value = true) : anyColumn column test row = true := by
  obtain ⟨entry, member, name, rfl⟩ := mem_of_findColumn found
  exact List.any_eq_true.mpr ⟨entry, member, by rw [name, passes, beq_self_eq_true]; rfl⟩

/-- A row that is joined has the key of a row joined so far. -/
theorem joinsRow_key {reference : String × String} {rightColumn : String} {groups : Groups J} {row : Row J}
    (joined : joinsRow reference rightColumn groups row = true) :
    ∃ value, joinKey (groupValue reference groups) = some value ∧ findColumn rightColumn row = some value ∧
      value.isNull = false := by
  unfold joinsRow at joined
  split at joined
  next left right key found =>
    obtain ⟨value, present⟩ := Option.filter_eq_some_iff.mp found
    exact ⟨left, key, by rw [of_decide_eq_true joined]; exact value, by
      rw [of_decide_eq_true joined]
      simpa using present⟩
  next => cases joined

section Clauses
variable {sides : List (JoinSide J)} {rows : List RowRef}

/-- The rows that are loaded join as the whole table does, in some order. -/
theorem loadJoinRightRows_spec (ordered : ∀ side ∈ sides, side.Ordered) (valid : ∀ row ∈ rows, row.Valid sides)
    (readable : ReadsTable tx s t) (fromTable : String) (join : Join) (tables : List (String × List ColumnDef)) :
    ∃ loaded listing : List (Row J),
      db.loadJoinRightRows tx s sides rows (leftKey sides (resolveColumnRef join.leftColumn fromTable).1
        (resolveColumnRef join.leftColumn fromTable).2) t (resolveColumnRef join.rightColumn join.table).2
        join.joinType.keepUnmatchedRight = .ok loaded ∧
      loaded ⊆ visibleRows tx s t ∧ listing.Perm (visibleRows tx s t) ∧
      (join.joinType.keepUnmatchedRight = true → db.selectColumns tx s t .all = .ok listing) ∧
      nestedLoopClause fromTable join tables ⟨join.table, t.columns, loaded⟩ (rows.map (rowGroups sides)) =
        nestedLoopClause fromTable join tables ⟨join.table, t.columns, listing⟩ (rows.map (rowGroups sides)) := by
  generalize rightColumn_ : (resolveColumnRef join.rightColumn join.table).2 = rightColumn
  unfold Database.loadJoinRightRows
  cases keep : join.joinType.keepUnmatchedRight with
  | true =>
      have perm := select_all_perm db readable
      exact ⟨_, _, selectColumns_all, perm.subset, perm, fun _ => selectColumns_all, rfl⟩
  | false =>
      rw [if_neg Bool.false_ne_true]
      dsimp only
      generalize values_ : (rows.filterMap (leftValue sides (leftKey sides
        (resolveColumnRef join.leftColumn fromTable).1 (resolveColumnRef join.leftColumn fromTable).2))).eraseDups = values
      -- a test that every joined row passes is enough
      have restrict : ∀ (test : Row J → Bool) (loaded : List (Row J)),
          loaded.Perm ((visibleRows tx s t).filter test) →
          (∀ row value, findColumn rightColumn row = some value → value.isNull = false → value ∈ values →
            test row = true) →
          ∃ listing : List (Row J), loaded ⊆ visibleRows tx s t ∧ listing.Perm (visibleRows tx s t) ∧
            (false = true → db.selectColumns tx s t .all = .ok listing) ∧
            nestedLoopClause fromTable join tables ⟨join.table, t.columns, loaded⟩ (rows.map (rowGroups sides)) =
              nestedLoopClause fromTable join tables ⟨join.table, t.columns, listing⟩ (rows.map (rowGroups sides)) := by
        intro test loaded perm passes
        obtain ⟨listing, whole, rfl⟩ := exists_listing perm
        refine ⟨listing, fun row member => whole.subset (List.mem_filter.mp member).1, whole,
          fun no => Bool.noConfusion no, ?_⟩
        unfold nestedLoopClause
        dsimp only
        rw [keep]
        refine nestedLoop_filter fun groups member row _ joined => ?_
        obtain ⟨left, listed, rfl⟩ := List.mem_map.mp member
        obtain ⟨value, key, found, present⟩ := joinsRow_key joined
        rw [rightColumn_] at found
        refine passes row value found present ?_
        rw [← values_, List.mem_eraseDups, List.mem_filterMap]
        exact ⟨left, listed, by rw [leftValue_eq ordered (valid left listed)]; exact key⟩
      cases empty : values.isEmpty with
      | true =>
          obtain ⟨listing, spec⟩ := restrict (fun _ => false) [] (by simp) fun row value _ _ member => by
            rw [List.isEmpty_iff.mp empty] at member
            cases member
          exact ⟨[], listing, rfl, spec⟩
      | false =>
          rw [if_neg Bool.false_ne_true]
          split
          · have total : ∀ row, (Filter.ne rightColumn .null : Filter J F).matches db.predicates row =
              .ok (anyColumn rightColumn (fun v => v ≠ .null) row) := fun _ => rfl
            have perm : ((db.visited tx s t (some (.ne rightColumn .null))).filter
                (anyColumn rightColumn fun v => v ≠ .null)).Perm _ := visited_perm db readable fun row passes f same => by
              cases same
              rw [total, passes]
            obtain ⟨listing, spec⟩ := restrict _ _ perm fun row value found present _ =>
              anyColumn_of_find found (decide_eq_true fun null => by rw [null] at present; cases present)
            exact ⟨_, listing, selectColumns_matching total, spec⟩
          · have total : ∀ row, (Filter.inList rightColumn values : Filter J F).matches db.predicates row =
              .ok (anyColumn rightColumn (fun v => v ∈ values) row) := fun _ => rfl
            have perm : ((db.visited tx s t (some (.inList rightColumn values))).filter
                (anyColumn rightColumn fun v => v ∈ values)).Perm _ := visited_perm db readable fun row passes f same => by
              cases same
              rw [total, passes]
            obtain ⟨listing, spec⟩ := restrict _ _ perm fun row value found _ member =>
              anyColumn_of_find found (decide_eq_true member)
            exact ⟨_, listing, selectColumns_matching total, spec⟩

/-- The listing is the table of the clause with its rows in some order; that of a query
for the whole table where the clause keeps unmatched rows. -/
structure ListsTable (db : Database J F) (tx : Option (Transaction J F)) (s : DbState J)
    (clause : Join × TableDef J) (listing : JoinSide J) : Prop where
  table : listing.table = clause.1.table
  columns : listing.columns = clause.2.columns
  rows : listing.rows.Perm (visibleRows tx s clause.2)
  scanned : clause.1.joinType.keepUnmatchedRight = true → db.selectColumns tx s clause.2 .all = .ok listing.rows

theorem joinClauses_spec (fromTable : String) (clauses : List (Join × TableDef J))
    (readable : ∀ clause ∈ clauses, ReadsTable tx s clause.2) (ordered : ∀ side ∈ sides, side.Ordered)
    (valid : ∀ row ∈ rows, row.Valid sides) :
    ∃ sides' rows' listings, db.joinClauses tx s fromTable clauses sides rows = .ok (sides', rows') ∧
      (∀ side ∈ sides', side.Ordered) ∧ (∀ row ∈ rows', row.Valid sides') ∧
      sides'.map (fun side => (side.table, side.columns)) = sides.map (fun side => (side.table, side.columns)) ++
        clauses.map (fun clause => (clause.1.table, clause.2.columns)) ∧
      List.Forall₂ (ListsTable db tx s) clauses listings ∧
      rows'.map (rowGroups sides') = nestedLoops fromTable ((clauses.map Prod.fst).zip listings)
        (sides.map fun side => (side.table, side.columns)) (rows.map (rowGroups sides)) := by
  induction clauses generalizing sides rows with
  | nil => exact ⟨sides, rows, [], rfl, ordered, valid, (List.append_nil _).symm, .nil, rfl⟩
  | cons clause rest ih =>
      obtain ⟨join, t⟩ := clause
      obtain ⟨here, later⟩ := List.forall_mem_cons.mp readable
      obtain ⟨loaded, listing, load, sub, whole, scanned, same⟩ := loadJoinRightRows_spec db ordered valid here fromTable join
        (sides.map fun side => (side.table, side.columns))
      have right : JoinSide.Ordered ⟨join.table, t.columns, loaded⟩ :=
        ⟨t.columnNames, fun row member => here.columns row (sub member)⟩
      have ordered' : ∀ side ∈ sides ++ [⟨join.table, t.columns, loaded⟩], side.Ordered :=
        List.forall_mem_append.mpr ⟨ordered, List.forall_mem_singleton.mpr right⟩
      obtain ⟨sides', rows', listings, run, final, valid', tables, lists, groups⟩ := ih later ordered'
        (hashJoin_valid right valid _ _ _ _)
      refine ⟨sides', rows', ⟨join.table, t.columns, listing⟩ :: listings, ?_, final, valid', ?_,
        .cons ⟨rfl, rfl, whole, scanned⟩ lists, ?_⟩
      · rw [Database.joinClauses]
        dsimp only
        rw [load]
        exact run
      · rw [tables, List.map_append, List.append_assoc]
        rfl
      · rw [groups, hashJoin_groups ordered right valid, same, List.map_append]
        rfl

end Clauses
end Loaded

/-! ## The result -/

section Finish
variable [LinearOrder J] {α : Type} {groups : α → Groups J} {P : Predicates J F}

theorem filterJoined_map {filter : Option (Filter J F)} {rows : List α} :
    (filterJoined groups P filter rows).map (List.map groups) = filterJoined id P filter (rows.map groups) := by
  induction rows with
  | nil => rfl
  | cons row rest ih =>
      rw [List.map_cons, filterJoined, filterJoined, ← ih]
      dsimp only [id]
      cases joinedRowMatches P filter (groups row) with
      | error e => rfl
      | ok keep =>
          cases filterJoined groups P filter rest with
          | error e => rfl
          | ok kept => cases keep <;> rfl

theorem filterJoined_subset {filter : Option (Filter J F)} {rows found : List α}
    (run : filterJoined groups P filter rows = .ok found) : found ⊆ rows := by
  induction rows generalizing found with
  | nil =>
      cases run
      exact List.Subset.refl _
  | cons row rest ih =>
      obtain ⟨keep, _, run⟩ := bind_eq_ok.mp run
      obtain ⟨kept, others, run⟩ := bind_eq_ok.mp run
      cases run
      split
      · exact List.cons_subset_cons _ (ih others)
      · exact List.subset_cons_of_subset _ (ih others)

theorem sortJoinedRows_map {rows : List α} {column : String} {direction : OrderDirection} :
    (sortJoinedRows groups rows column direction).map groups =
      sortJoinedRows id (rows.map groups) column direction :=
  List.map_mergeSort fun _ _ _ _ => rfl

/-- The filter, the order and the page look at the values only. -/
theorem finishJoin_map {query : JoinQuery J F} {rows : List α} :
    (finishJoin groups P query rows).map (List.map groups) = finishJoin id P query (rows.map groups) := by
  have sorted : ∀ (orderBy : List (String × OrderDirection)) (rows : List α),
      (orderBy.foldr (fun order rows => sortJoinedRows groups rows order.1 order.2) rows).map groups =
        orderBy.foldr (fun order rows => sortJoinedRows id rows order.1 order.2) (rows.map groups) := by
    intro orderBy rows
    induction orderBy with
    | nil => rfl
    | cons order rest ih => rw [List.foldr_cons, List.foldr_cons, sortJoinedRows_map, ih]
  unfold finishJoin
  rw [← filterJoined_map]
  cases filterJoined groups P query.filter rows with
  | error e => rfl
  | ok kept =>
      dsimp only [Except.map, bind, Except.bind]
      rw [← sorted, ← List.map_drop]
      cases query.limit with
      | none => rfl
      | some limit => exact congrArg Except.ok List.map_take

theorem finishJoin_subset {query : JoinQuery J F} {rows found : List α}
    (run : finishJoin groups P query rows = .ok found) : found ⊆ rows := by
  have sorted : ∀ (orderBy : List (String × OrderDirection)) (rows : List α),
      orderBy.foldr (fun order rows => sortJoinedRows groups rows order.1 order.2) rows ⊆ rows := by
    intro orderBy rows
    induction orderBy with
    | nil => exact List.Subset.refl _
    | cons order rest ih => exact List.Subset.trans (List.mergeSort_perm _ _).subset ih
  obtain ⟨kept, filtered, run⟩ := bind_eq_ok.mp run
  have page := List.Subset.trans (List.drop_subset (query.offset.getD 0) _)
    (List.Subset.trans (sorted query.orderBy kept) (filterJoined_subset filtered))
  dsimp only at run
  split at run
  · cases run
    exact List.Subset.trans (List.take_subset _ _) page
  · cases run
    exact page

end Finish

section Project
variable {sides : List (JoinSide J)} {row : RowRef}

theorem projectRow_eq {columns : List ColumnDef} {row : Row J} (listed : row.map Prod.fst = columns)
    (names : (columns.map ColumnDef.name).Nodup) (chosen : ColumnDef → Bool) :
    ((row.zip (columns.map chosen)).filterMap fun entry => if entry.2 then some entry.1.2 else none) =
      (columns.filter chosen).map fun column => (findColumn column.name row).getD .null := by
  subst listed
  rw [List.map_map] at names
  have values : (row.zip ((row.map Prod.fst).map chosen)).filterMap
      (fun entry => if entry.2 then some entry.1.2 else none) = (row.filter fun entry => chosen entry.1).map Prod.snd := by
    clear names
    induction row with
    | nil => rfl
    | cons entry rest ih =>
        rw [List.map_cons, List.map_cons, List.zip_cons_cons, List.filterMap_cons, List.filter_cons, ih]
        cases chosen entry.1 <;> rfl
  rw [values, List.filter_map, List.map_map]
  refine List.map_congr_left fun entry member => ?_
  rw [Function.comp_apply, findColumn_eq names (List.mem_filter.mp member).1]
  rfl

/-- The selected values by their positions and by their names. -/
theorem materializeRow_eq (ordered : ∀ side ∈ sides, side.Ordered) (valid : row.Valid sides)
    (selected : Option (List String)) :
    materializeRow (sides.map fun side => selectedColumns selected side.table side.columns) (rowGroups sides row) =
      projectGroups selected (sides.map fun side => (side.table, side.columns)) (rowGroups sides row) := by
  induction valid with
  | nil => rfl
  | cons inRange valid ih =>
      rename_i side index sides row
      rw [List.forall_mem_cons] at ordered
      have listed : (side.row index).map Prod.fst = side.columns := by
        cases index with
        | none =>
            rw [JoinSide.row, nullRow, List.map_map]
            exact List.map_id _
        | some n => exact ordered.1.rows _ (JoinSide.row_mem (inRange n rfl))
      have first := projectRow_eq listed ordered.1.names (isSelected selected side.table)
      have rest := ih ordered.2
      unfold materializeRow projectGroups at rest ⊢
      rw [rowGroups, List.zipWith_cons_cons, List.map_cons, List.map_cons, List.zip_cons_cons, List.zip_cons_cons,
        List.flatMap_cons, List.flatMap_cons, ← rowGroups, rest]
      exact congrArg (· ++ _) first

end Project

section Engine
variable [LinearOrder J] (db : Database J F) {tx : Option (Transaction J F)} {s : DbState J}

variable {db} in
theorem resolveJoin_ok {fromTable : String} {query : JoinQuery J F} {source : TableDef J}
    {joined : List (Join × TableDef J)} (resolved : db.resolveJoin fromTable query = .ok (source, joined)) :
    source ∈ db.schema.tables ∧ ∀ clause ∈ joined, clause.2 ∈ db.schema.tables := by
  obtain ⟨t, found, resolved⟩ := bind_eq_ok.mp resolved
  obtain ⟨clauses, mapped, resolved⟩ := bind_eq_ok.mp resolved
  obtain ⟨_, _, resolved⟩ := bind_eq_ok.mp resolved
  cases resolved
  refine ⟨(DatabaseSchema.table_ok (Failure.lift_eq_ok.mp found)).1, fun clause member => ?_⟩
  obtain ⟨join, _, made⟩ := (mem_mapM mapped).mp member
  obtain ⟨t, found, made⟩ := bind_eq_ok.mp made
  cases made
  exact (DatabaseSchema.table_ok (Failure.lift_eq_ok.mp found)).1

/-- The join engine returns what the nested loops over the whole tables return, the
rows of each table being taken in some order. -/
theorem join_eq_nestedLoopJoin (readable : ∀ t ∈ db.schema.tables, ReadsTable tx s t) (fromTable : String)
    (query : JoinQuery J F) :
    (∃ e, db.resolveJoin fromTable query = .error e ∧ db.join tx s fromTable query = .error e) ∨
    ∃ source joined rows listings, db.resolveJoin fromTable query = .ok (source, joined) ∧
      db.selectColumns tx s source .all = .ok rows ∧ rows.Perm (visibleRows tx s source) ∧
      List.Forall₂ (ListsTable db tx s) joined listings ∧
      db.join tx s fromTable query =
        nestedLoopJoin db.predicates query ⟨fromTable, source.columns, rows⟩ ((joined.map Prod.fst).zip listings) := by
  cases resolved : db.resolveJoin fromTable query with
  | error e =>
      refine .inl ⟨e, rfl, ?_⟩
      rw [Database.join, resolved]
      rfl
  | ok tables =>
      obtain ⟨source, joined⟩ := tables
      obtain ⟨listed, clauses⟩ := resolveJoin_ok resolved
      have whole := select_all_perm db (readable source listed)
      generalize scanned : db.visited tx s source none = rows at whole
      have first : JoinSide.Ordered ⟨fromTable, source.columns, rows⟩ :=
        ⟨source.columnNames, fun row member => (readable source listed).columns row (whole.subset member)⟩
      have start : ∀ row ∈ (List.range rows.length).map (fun index => [some index]),
          RowRef.Valid [⟨fromTable, source.columns, rows⟩] row := by
        intro row member
        obtain ⟨index, short, rfl⟩ := List.mem_map.mp member
        exact .cons (fun n same => Option.some.inj same ▸ List.mem_range.mp short) .nil
      obtain ⟨sides, refs, listings, run, ordered, valid, tables, lists, groups⟩ := joinClauses_spec db
        fromTable joined (fun clause member => readable _ (clauses clause member))
        (List.forall_mem_singleton.mpr first) start
      have all : db.selectColumns tx s source .all = .ok rows := scanned ▸ selectColumns_all
      refine .inr ⟨source, joined, rows, listings, rfl, all, whole, lists, ?_⟩
      have opened : ((List.range rows.length).map fun index => [some index]).map
          (rowGroups [⟨fromTable, source.columns, rows⟩]) = rows.map fun row => [(fromTable, row)] := by
        conv_rhs => rw [← map_getD_range rows]
        rw [List.map_map, List.map_map]
        rfl
      have same : (joined.map fun clause => (clause.1.table, clause.2.columns)) =
          ((joined.map Prod.fst).zip listings).map fun join => (join.2.table, join.2.columns) := by
        clear clauses run tables groups resolved
        induction lists with
        | nil => rfl
        | cons listed _ ih =>
            rw [List.map_cons, List.map_cons, List.zip_cons_cons, List.map_cons, ih, listed.table, listed.columns]
      rw [opened] at groups
      rw [List.map_singleton, List.singleton_append, same] at tables
      have finished : (finishJoin (rowGroups sides) db.predicates query refs).map (List.map (rowGroups sides)) = _ :=
        finishJoin_map
      rw [groups, List.map_singleton] at finished
      unfold Database.join nestedLoopJoin
      rw [resolved]
      dsimp only [bind, Except.bind]
      rw [all]
      dsimp only
      rw [run]
      dsimp only
      rw [← finished, ← tables]
      cases result : finishJoin (rowGroups sides) db.predicates query refs with
      | error e => rfl
      | ok kept =>
          dsimp only [Except.map]
          rw [List.map_map]
          refine congrArg (fun rows => Except.ok (JoinResultSet.mk _ rows)) (List.map_congr_left fun row member => ?_)
          exact materializeRow_eq ordered (valid row (finishJoin_subset result member)) query.columns

end Engine

/-! ## Two orders of a table -/

namespace Tasks

def id : ColumnDef := ⟨"id", .uint32, false, false, true, false, none⟩

def owner : ColumnDef := ⟨"owner", .uint32, false, false, false, false, none⟩

theorem columnNames : ([id, owner].map ColumnDef.name).Nodup := by decide

theorem keyed : ∃ c ∈ [id, owner], c.name = "id" ∧ c.primaryKey = true := ⟨id, List.mem_cons_self, rfl, rfl⟩

theorem oneKey : ∀ c ∈ [id, owner], c.primaryKey = true → c.name = "id" := by decide

theorem indexNames : ([⟨["id"]⟩, ⟨["owner"]⟩].map IndexDef.columns).Nodup := by decide

theorem keyIndex : ([⟨["id"]⟩, ⟨["owner"]⟩] : List IndexDef) ≠ [] := List.cons_ne_nil _ _

/-- Tasks with an indexed owner. -/
def table : TableDef ℕ where
  name := "tasks"
  columns := [id, owner]
  primaryKey := "id"
  indexes := [⟨["id"]⟩, ⟨["owner"]⟩]
  sanitizer _ := none
  validator _ := none
  columnNames := columnNames
  keyed := keyed
  oneKey := oneKey
  indexNames := indexNames
  keyIndex := keyIndex

theorem plain : ∀ c ∈ table.columns, c.foreignKey = none := by decide

theorem names : ([table].map TableDef.name).Nodup := List.nodup_singleton _

def schema : DatabaseSchema ℕ where
  tables := [table]
  names := names
  local_ t listed c column fk key := by
    obtain rfl := List.mem_singleton.mp listed
    rw [plain c column] at key
    cases key
  foreign t listed c column fk key := by
    obtain rfl := List.mem_singleton.mp listed
    rw [plain c column] at key
    cases key

/-- An IN filter is answered from an index, with the records in the order of their
addresses; anything else by a scan. -/
def access (filter : Option (Filter ℕ Empty)) (rows : List (RecordAddress × Row ℕ)) : List (RecordAddress × Row ℕ) :=
  match filter with
  | some (.inList _ _) => rows.insertionSort fun a b => a.1 ≤ b.1
  | _ => rows

theorem access_perm (filter : Option (Filter ℕ Empty)) (rows : List (RecordAddress × Row ℕ)) :
    (access filter rows).Perm rows := by
  unfold access
  split
  · exact List.perm_insertionSort _ _
  · exact .refl _

def predicates : Predicates ℕ Empty := ⟨fun _ => .error "", fun f => f.elim, fun f => f.elim⟩

def db : Database ℕ Empty :=
  { Database.scanning schema predicates with
    access := fun _ filter rows => access filter rows
    visits := fun _ filter rows => (access_perm filter rows).subperm
    covers := fun _ filter rows _ member _ => (access_perm filter rows).mem_iff.mpr member }

def task (key : UInt32) : Row ℕ := [(id, .uint32 key), (owner, .uint32 1)]

/-- Two tasks of one owner, the second one on a page that has been released before. -/
def stored : DbState ℕ := fun _ =>
  ⟨[(⟨9, 0⟩, task 2), (⟨4, 0⟩, task 1)],
    [(["id"], [([.uint32 1], ⟨4, 0⟩), ([.uint32 2], ⟨9, 0⟩)]), (["owner"], [([.uint32 1], ⟨9, 0⟩), ([.uint32 1], ⟨4, 0⟩)])]⟩

theorem stored_readable : ∀ t ∈ schema.tables, ReadsTable (none : Option (Transaction ℕ Empty)) stored t := by
  intro t listed
  obtain rfl := List.mem_singleton.mp listed
  refine ⟨by decide, fun no => Bool.noConfusion no, fun row member => ?_⟩
  rcases List.mem_cons.mp member with rfl | member
  · rfl
  · obtain rfl := List.mem_singleton.mp member
    rfl

/-- The first pair of tasks with the same owner. -/
def sameOwner : JoinQuery ℕ Empty :=
  ⟨⟨none, [], [], none, some 1⟩, [⟨.inner, "tasks", "owner", "owner"⟩], none⟩

/-- The pair is one of the nested loops. -/
theorem join_same_owner : (∃ e, db.resolveJoin "tasks" sameOwner = .error e ∧
      db.join none stored "tasks" sameOwner = .error e) ∨
    ∃ source joined rows listings, db.resolveJoin "tasks" sameOwner = .ok (source, joined) ∧
      db.selectColumns none stored source .all = .ok rows ∧ rows.Perm (visibleRows (none : Option (Transaction ℕ Empty)) stored source) ∧
      List.Forall₂ (ListsTable db none stored) joined listings ∧
      db.join none stored "tasks" sameOwner =
        nestedLoopJoin db.predicates sameOwner ⟨"tasks", source.columns, rows⟩ ((joined.map Prod.fst).zip listings) :=
  join_eq_nestedLoopJoin db stored_readable "tasks" sameOwner

/-- The rows read through the index are in another order than the whole table. -/
theorem join_reorders : db.selectColumns none stored table .all = .ok [task 2, task 1] ∧
    (db.join none stored "tasks" sameOwner).map JoinResultSet.rows = .ok [[.uint32 2, .uint32 1, .uint32 1, .uint32 1]] ∧
    (nestedLoopJoin predicates sameOwner ⟨"tasks", table.columns, [task 2, task 1]⟩
      [(⟨.inner, "tasks", "owner", "owner"⟩, ⟨"tasks", table.columns, [task 2, task 1]⟩)]).map JoinResultSet.rows =
        .ok [[.uint32 2, .uint32 1, .uint32 2, .uint32 1]] :=
  ⟨rfl, rfl, rfl⟩

end Tasks
end WasmDbms
