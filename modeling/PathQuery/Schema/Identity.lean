import PathQuery.Schema.View

namespace PathQuery

structure SchemaId where
  serial : UInt64
deriving DecidableEq

namespace SchemaId

instance : Ord SchemaId := ⟨compareOn serial⟩

end SchemaId

structure SchemaRef where
  id : SchemaId
  view : SchemaView

structure SchemaIds where
  next : UInt64

namespace SchemaIds

def first : SchemaIds := ⟨1⟩

def refer (ids : SchemaIds) (view : SchemaView) : SchemaRef × SchemaIds :=
  (⟨⟨ids.next⟩, view⟩, ⟨ids.next + 1⟩)

end SchemaIds

end PathQuery
