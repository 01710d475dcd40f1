import AvrOs.AgingLimit
import AvrOs.Conservation
import AvrOs.Contexts
import AvrOs.Creation
import AvrOs.Delays
import AvrOs.Exclusion
import AvrOs.Flags
import AvrOs.Idle
import AvrOs.LockOrder
import AvrOs.Messages
import AvrOs.Ownership
import AvrOs.Periodic
import AvrOs.Pools
import AvrOs.Preemption
import AvrOs.Raising
import AvrOs.Sharing
import AvrOs.SoftTimers
import AvrOs.TaskLists
import AvrOs.TickTimer
import AvrOs.Timeouts
import AvrOs.Unwrapped
import AvrOs.Waking
import AvrOs.Withdrawing
import AvrOs.Device
