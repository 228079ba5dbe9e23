import Mecocoa.Task.WriteBack
import Mecocoa.Task.FileRuns
import Mecocoa.File.CopyEpochs
import Mecocoa.File.Append
import Mecocoa.File.CachedRead
import Mecocoa.Memory.IovaRuns
import Mecocoa.Memory.LowDma
import Mecocoa.Memory.StrCopy
import Mecocoa.Sched.Epochs
import Mecocoa.Ipc.Delivery
import Mecocoa.Ipc.Waits
import Mecocoa.Ipc.Order
import Mecocoa.Ipc.DeviceEvents
import Mecocoa.Task.ElfEager
import Mecocoa.Pipe.Waits
import Mecocoa.Thread.Reap
import Mecocoa.Thread.Futex
import Mecocoa.Process.Reports
import Mecocoa.Net.Lease
import Mecocoa.Gpio.Interrupts
import Mecocoa.Dev.Storage
import Mecocoa.Dev.Transfer
import Mecocoa.Acpi.CompatibleIds
import Mecocoa.Vfs.Lookup
