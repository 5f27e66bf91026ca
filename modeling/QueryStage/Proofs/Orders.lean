import QueryStage.Stage

/-!
# A source of orders

A small source that concrete projectors and groupings of this development are written against: an
order with two addresses, one of them optional, and with a list of items.
-/

namespace QueryStage.Orders

def address : DocumentDecoder where
  typeName := "Address"
  members := [("City", ⟨"city", .value .string⟩), ("Zip", ⟨"zip", .value .string⟩)]
  creator := ["City", "Zip"]

def item : DocumentDecoder where
  typeName := "Item"
  members := [("Name", ⟨"name", .value .string⟩), ("Quantity", ⟨"qty", .value .int32⟩)]
  creator := ["Name", "Quantity"]

def order : DocumentDecoder where
  typeName := "Order"
  members :=
    [("Express", ⟨"express", .value .boolean⟩), ("Amount", ⟨"amount", .value .int32⟩),
      ("Home", ⟨"home", .document address⟩), ("Work", ⟨"work", .nullable (.document address)⟩),
      ("Items", ⟨"items", .array (.document item)⟩)]
  creator := ["Express", "Amount", "Home", "Work", "Items"]

def source : Decoder := .document order

def registry : Registry where
  classes := [("Address", address), ("Item", item), ("Order", order)]

def ofOrder (name : String) : Parameter := ⟨name, .record "Order"⟩

def ofItem (name : String) : Parameter := ⟨name, .record "Item"⟩

/-- The group of the orders with one key. -/
def ofGroup (name : String) (key : Ty) : Parameter := ⟨name, .grouping key (.record "Order")⟩

end QueryStage.Orders
