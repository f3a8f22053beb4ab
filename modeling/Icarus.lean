import Icarus.Acpi.MadtBounds
import Icarus.Acpi.MappedReads
import Icarus.Acpi.Pcie
import Icarus.Alloc.Overlap
import Icarus.Alloc.Window
import Icarus.Base.Pool
import Icarus.Boot.BootTables
import Icarus.Boot.HeapOrder
import Icarus.Boot.TagBounds
import Icarus.Boot.TagRounds
import Icarus.Drivers.KeyPath
import Icarus.Drivers.Printf
import Icarus.Drivers.Ps2Device
import Icarus.Drivers.ScreenText
import Icarus.Drivers.ShiftKeys
import Icarus.Files.TarParse
import Icarus.Interrupts.Calibration
import Icarus.Interrupts.Idt
import Icarus.Interrupts.IoApic
import Icarus.Interrupts.IoApicRecords
import Icarus.Memory.BitOps
import Icarus.Memory.BitShow
import Icarus.Memory.DirectMap
import Icarus.Memory.FirstFit
import Icarus.Memory.FrameLists
import Icarus.Memory.FrameOrder
import Icarus.Memory.HeapSafety
import Icarus.Memory.KernelFrames
import Icarus.Memory.ListedFrames
import Icarus.Memory.MemMapTag
import Icarus.Memory.MmioRange
import Icarus.Memory.PageMap
import Icarus.Memory.PageOut
import Icarus.Memory.SoftwareWalks
import Icarus.Memory.TableRuns
import Icarus.Processes.AddressSpaces
import Icarus.Processes.AllOrNothing
import Icarus.Processes.CodeLoad
import Icarus.Processes.Exit
import Icarus.Processes.Isolation
import Icarus.Processes.Permissions
import Icarus.Processes.Process
import Icarus.Processes.ScreenPrograms
import Icarus.Processes.Selection
import Icarus.Processes.StackGrowth
import Icarus.Processes.Starvation
