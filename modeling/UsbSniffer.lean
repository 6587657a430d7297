import UsbSniffer.Sync.Machine
import UsbSniffer.Sync.Queue
import UsbSniffer.Sync.Parts
import UsbSniffer.Sync.Component
import UsbSniffer.Sync.Progress
import UsbSniffer.Sync.Switch
import UsbSniffer.Sync.Bits
import UsbSniffer.Iti.Conv4032
import UsbSniffer.Clocker
import UsbSniffer.Iti.Packer
import UsbSniffer.Sync.Records
import UsbSniffer.Iti.Format
import UsbSniffer.Iti.Pattern
import UsbSniffer.Iti.Mark
import UsbSniffer.Iti.Core
import UsbSniffer.Ft601.Fsm
import UsbSniffer.Ft601.Transmit
import UsbSniffer.Ft601.Receive
import UsbSniffer.Ft601.Strobes
import UsbSniffer.Sync.Burst
import UsbSniffer.Ft601.Counters
import UsbSniffer.Ft601.Phy
import UsbSniffer.Ft601.Turns
import UsbSniffer.Usb.Wrapper
import UsbSniffer.Usb.Packetizer
import UsbSniffer.Usb.Framing
import UsbSniffer.Usb.FramingReset
import UsbSniffer.Usb.Crossbar
import UsbSniffer.Usb.Dispatch
import UsbSniffer.Usb.Flush
import UsbSniffer.Sync.Ring
import UsbSniffer.Dram.Ctrl
import UsbSniffer.Dram.Latch
import UsbSniffer.Dram.Port
import UsbSniffer.Dram.Fifo
import UsbSniffer.Dram.Invariant
import UsbSniffer.Dram.Lossless
import UsbSniffer.Dram.Reset
import UsbSniffer.Dram.Drain
import UsbSniffer.Dram.Preserve
import UsbSniffer.Iti.Time
import UsbSniffer.Iti.Overflow
import UsbSniffer.Iti.Event
import UsbSniffer.Usb.Depacketizer
import UsbSniffer.Sync.Stage
import UsbSniffer.Sync.Packet
import UsbSniffer.Etherbone.Receiver
import UsbSniffer.Etherbone.Execute
import UsbSniffer.Host.Link
import UsbSniffer.Usb.Decode
import UsbSniffer.Usb.Timeout
import UsbSniffer.Host.Etherbone
import UsbSniffer.Host.Register
import UsbSniffer.Host.Receive
import UsbSniffer.Host.File
import UsbSniffer.Host.Mux
import UsbSniffer.Etherbone.Packet
import UsbSniffer.Etherbone.Sender
import UsbSniffer.Etherbone.Master
import UsbSniffer.Etherbone.Record
import UsbSniffer.Etherbone.Access
import UsbSniffer.Etherbone.Serve
import UsbSniffer.Host.Program
import UsbSniffer.Sync.Merge
import UsbSniffer.Sync.Fork
import UsbSniffer.Etherbone.Probe
import UsbSniffer.Etherbone.Whole
import UsbSniffer.Etherbone.Port
import UsbSniffer.Sync.Header
import UsbSniffer.Etherbone.Header
import UsbSniffer.Host.Header
import UsbSniffer.Host.Builder
import UsbSniffer.Etherbone.Filter
import UsbSniffer.Ulpi.Phy
import UsbSniffer.Ulpi.Bursts
import UsbSniffer.Ulpi.Core
import UsbSniffer.Ulpi.Read
import UsbSniffer.Ulpi.Driver
import UsbSniffer.Spi.Master
import UsbSniffer.Spi.Transfer
import UsbSniffer.Iti.Stream
import UsbSniffer.Iti.Join
import UsbSniffer.Storage
import UsbSniffer.Soc.Capture
import UsbSniffer.Soc.Delivery
import UsbSniffer.Soc.Loopback
import UsbSniffer.Soc.Sharing
import UsbSniffer.Board
