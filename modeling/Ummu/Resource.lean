import Ummu.Common

/-!
# Resources

The buffers of `ummu_resource.c` and the heap objects that the life of a tid takes and gives back.
-/

namespace Ummu

/-- What is taken and given back; a buffer of `ummu_get_core_buf` carries its size, and the queue
buffer its address as well. -/
inductive Resource where
  | tid (tid : BitVec 32)
  | maptInfo
  | queueArgs
  | queueBuf (addr size : BitVec 64)
  | entryBuf (size : Nat)
  | tableCtx
  | segMng
  | maptBlock (blockIndex : Nat)
  | tableBuf (blockIndex size : Nat)
deriving DecidableEq

inductive ResourceEvent where
  | acquire (r : Resource)
  | release (r : Resource)
deriving DecidableEq

end Ummu
