import PeerDma.Bench.Basic
import PeerDma.Command

/-!
# Steps

A session on the bench is a list of steps: calls of an instance, changes to the bench, and the
beginning and end of instances.
-/

namespace PeerDma

namespace Bench

/-- What a session can be told to do. -/
inductive Step where
  -- Calls of the instance.
  | map (caller : Pid) (address : GpuAddr) (length : Nat)
  | unmap (handle : Handle)
  | teardown (handle : Handle) (cause : Cause)
  | info (handle : Handle) (capacity : Nat)
  | checkFile (descriptor : Int)
  | copy (order : CopyOrder)
  | copyAsync (order : CopyOrder)
  | wait (task : TaskId)
  | cleanup (task : TaskId)
  | contains (task : TaskId)
  | probe (descriptor : Int) (offset length : Nat)
  | snapshot
  | status
  | describe
  | config
  | acquire (handle : Handle) (name : String)
  | release (name : String)
  | refs (name : String)
  | window (name : String) (offset length : Nat)
  | plan (name : String) (start : Nat) (extents : List Extent)
  | evict (base : GpuAddr)
  | dispatch (caller : Pid) (number : Nat) (block : Block)
  -- Changes to the bench.
  | failPin (error : Error)
  | revokePin
  | scriptTable (script : TableScript)
  | failUnpin (error : Error)
  | failHost (error : Error)
  | limitHost (most : Nat)
  | extraHost (count : Nat)
  | addFile (descriptor : Int) (file : OpenFile)
  | failBlock (index : Nat)
  | setBlock (index : Nat) (answer : Except Error Nat)
  | setProvider (id : Option ModuleId)
  | unload (kind : Filesystem)
  | refuse (channel : Channel) (attempt : Nat)
  | hook (site : HookSite) (task : TaskId)
  | complete (channels : List Channel)
  | completeOne (channel : Channel) (index : Nat)
  | geometry (index address : Nat)
  | requests (channel : Channel)
  | probeRaw (descriptor : Int) (pageSize offset length : Nat)
  -- The life of instances.
  | recreate (config : Config)
  | start (config : Config)
  | present
  | isPresent
  | stop

end Bench

end PeerDma
