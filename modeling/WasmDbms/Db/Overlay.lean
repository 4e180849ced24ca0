import WasmDbms.Db.Value

/-!
# The overlay of a transaction

The changes a transaction has made to a table, replayed on the stored rows and on
the rows it has inserted. The index overlay is not read by any query.
-/
namespace WasmDbms

variable {J : Type}

/-- Sets the first column of this name. -/
def setColumn (name : String) (value : Value J) : Row J → Row J
  | [] => []
  | entry :: rest =>
      if entry.1.name == name then (entry.1, value) :: rest else entry :: setColumn name value rest

/-- The values of a record with a patch. -/
def patchValues (patch : Row J) (values : Row J) : Row J :=
  patch.foldl (fun values entry => setColumn entry.1.name entry.2 values) values

/-- The value of the primary key column. -/
def primaryKeyOf (values : Row J) : Option (Value J) :=
  (values.find? fun entry => entry.1.primaryKey).map Prod.snd

/-- A change of one row, which is known by its primary key. -/
inductive Operation (J : Type) where
  | insert (key : Value J) (record : Row J)
  | update (key : Value J) (updates : Row J)
  | delete (key : Value J)

def Operation.primaryKeyValue : Operation J → Value J
  | insert key _ | update key _ | delete key => key

section Replay
variable [LinearOrder J]

/-- `replay`, from the primary key the row has by now. -/
def replayFrom (currentKey : Value J) (row : Row J) : List (Operation J) → Option (Row J)
  | [] => some row
  | op :: rest =>
      if op.primaryKeyValue ≠ currentKey then replayFrom currentKey row rest
      else match op with
        | .insert _ _ | .delete _ => none
        | .update _ updates =>
            let row := patchValues updates row
            let newKey := updates.find? fun entry =>
              row.any fun column => column.1.primaryKey && column.1.name == entry.1.name
            replayFrom ((newKey.map Prod.snd).getD currentKey) row rest

/-- The row after the changes, if they do not remove it. -/
def replay (row : Row J) (operations : List (Operation J)) : Option (Row J) := do
  let key ← primaryKeyOf row
  replayFrom key row operations

/-- The inserted rows that the later changes have left. -/
def iterInserted : List (Operation J) → List (Row J)
  | [] => []
  | .insert _ record :: rest => (replay record rest).toList ++ iterInserted rest
  | _ :: rest => iterInserted rest

/-- The rows an overlay reader returns. -/
def overlayRows (operations : List (Operation J)) (stored : List (Row J)) : List (Row J) :=
  stored.filterMap (fun row => replay row operations) ++ iterInserted operations

end Replay

end WasmDbms
