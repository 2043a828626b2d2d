import Sharak.Support.Memory
import Sharak.Support.Stuffing
import Sharak.Support.Cyclic
import Sharak.Support.Attempts
import Sharak.Support.Ring
import Sharak.Support.Lockstep
import Sharak.Support.Fifo
import Sharak.Support.Blocks
import Sharak.Protocol.Definitions
import Sharak.Protocol.Encode
import Sharak.Protocol.Capacity
import Sharak.Protocol.Codec
import Sharak.Protocol.Messages
import Sharak.Protocol.Decode
import Sharak.Protocol.Crc
import Sharak.Protocol.Residue
import Sharak.Protocol.Streams
import Sharak.Protocol.RoundTrip
import Sharak.Protocol.Windows
import Sharak.Protocol.Bounds
import Sharak.Protocol.Escapes
import Sharak.Protocol.Errors
import Sharak.Protocol.Flips
import Sharak.Firmware.Definitions
import Sharak.Firmware.Driver
import Sharak.Firmware.Decoding
import Sharak.Firmware.Simulator
import Sharak.Firmware.Transactions
import Sharak.Firmware.Snapshots
import Sharak.Firmware.ReadOnly
import Sharak.Firmware.Freshness
import Sharak.Firmware.Stellaris
import Sharak.Firmware.Stops
import Sharak.Firmware.Backends
import Sharak.Firmware.Node
import Sharak.Firmware.Wire
import Sharak.Firmware.RegisterFile
import Sharak.Firmware.Bringup
import Sharak.Firmware.Portability
import Sharak.Firmware.Sensor
import Sharak.Firmware.Uart
import Sharak.Firmware.NodeLine
import Sharak.Firmware.Startup
import Sharak.Fleet.Definitions
import Sharak.Fleet.Sessions
import Sharak.Fleet.CommandLine
import Sharak.Fleet.Process
