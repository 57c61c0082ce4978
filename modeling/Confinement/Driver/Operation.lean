import Confinement.Definition.Basic

/-!
# What drivers are asked

An operation labels, checks or releases something and has no answer but success or failure. A
question has an answer of its own type. Both have the names under which a driver refuses them.
-/

namespace Confinement

inductive Operation
  /-- Fill in the entry of the driver. -/
  | generate
  | release
  /-- Take over the label of a domain that already runs. -/
  | reserve (pid : UInt32)
  | verify
  /-- Label the own process. -/
  | setProcess
  | setImage (disk : Disk)
  | restoreImage (disk : Disk)
  /-- Label the sockets that are made from now on. -/
  | setSocket
  | clearSocket
  | setDaemonSocket
  | setDevice (device : HostDevice) (root : Option Path)
  | restoreDevice (device : HostDevice) (root : Option Path)
  | setSavedState (path : Path)
  | restoreSavedState (path : Path)
  | setOpenImage (descriptor : Nat)
  | setOpenTap (descriptor : Nat)
  deriving DecidableEq, Repr

namespace Operation

def name : Operation → String
  | generate => "generate_label"
  | release => "release_label"
  | reserve _ => "reserve_label"
  | verify => "verify"
  | setProcess => "set_process_label"
  | setImage _ => "set_image_label"
  | restoreImage _ => "restore_image_label"
  | setSocket => "set_socket_label"
  | clearSocket => "clear_socket_label"
  | setDaemonSocket => "set_daemon_socket_label"
  | setDevice .. => "set_hostdev_label"
  | restoreDevice .. => "restore_hostdev_label"
  | setSavedState _ => "set_saved_state_label"
  | restoreSavedState _ => "restore_saved_state_label"
  | setOpenImage _ => "set_image_fd_label"
  | setOpenTap _ => "set_tap_fd_label"

/-- Whether the operation may change the definition. -/
def edits : Operation → Bool
  | generate => true
  | release => true
  | _ => false

end Operation

inductive Question
  | model
  /-- The domain of interpretation of the labels. -/
  | interpretation
  | processLabel (pid : UInt32)
  /-- The options that give a mounted file system the label of the domain. -/
  | mountOptions
  deriving DecidableEq, Repr

namespace Question

abbrev Answer : Question → Type
  | model => String
  | interpretation => String
  | processLabel _ => ProcessLabel
  | mountOptions => Option String

def name : Question → String
  | model => "get_model"
  | interpretation => "get_doi"
  | processLabel _ => "get_process_label"
  | mountOptions => "get_mount_options"

end Question

end Confinement
