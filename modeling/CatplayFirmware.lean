import CatplayFirmware.Support.Bitfield
import CatplayFirmware.Support.Brackets
import CatplayFirmware.Support.Bytes
import CatplayFirmware.Support.Cbc
import CatplayFirmware.Support.Crc32
import CatplayFirmware.Support.Dependency
import CatplayFirmware.Support.Endian
import CatplayFirmware.Support.Except
import CatplayFirmware.Support.FlatMemory
import CatplayFirmware.Support.Gzip
import CatplayFirmware.Support.HString
import CatplayFirmware.Support.Hex
import CatplayFirmware.Support.Json
import CatplayFirmware.Support.Libconfig
import CatplayFirmware.Support.Loop
import CatplayFirmware.Support.Mips32
import CatplayFirmware.Support.MsbCrc
import CatplayFirmware.Support.Outcome
import CatplayFirmware.Support.Pattern
import CatplayFirmware.Support.Processes
import CatplayFirmware.Support.Python
import CatplayFirmware.Support.Rfc1321
import CatplayFirmware.Support.Runs
import CatplayFirmware.Support.Rust
import CatplayFirmware.Support.SparseFile
import CatplayFirmware.Support.Text
import CatplayFirmware.Support.Traced
import CatplayFirmware.Support.Triple
import CatplayFirmware.Support.Utf8
import CatplayFirmware.CarlinkitMiniFlasher.Recov
import CatplayFirmware.CarlinkitMiniFlasher.Trampoline
import CatplayFirmware.CarlinkitMiniFlasher.UImage
import CatplayFirmware.CarlinkitMiniFlasher.UsbBoot
import CatplayFirmware.Carplay.C2aOverlayInit
import CatplayFirmware.Carplay.ImageC2aflash
import CatplayFirmware.Carplay.KernelRiscvBundle
import CatplayFirmware.Carplay.Textfile
import CatplayFirmware.LinuxLetux.IngenicAes.Counter
import CatplayFirmware.LinuxLetux.IngenicAes.Crypt
import CatplayFirmware.LinuxLetux.IngenicAes.Ctr
import CatplayFirmware.LinuxLetux.IngenicAes.Scatter
import CatplayFirmware.LinuxLetux.IngenicAes.XorCopy
import CatplayFirmware.LinuxLetux.IngenicSfc.Controller
import CatplayFirmware.LinuxLetux.IngenicSfc.Pio
import CatplayFirmware.LinuxLetux.IngenicSfc.PioHandler
import CatplayFirmware.LinuxLetux.IngenicSfc.PioRuns
import CatplayFirmware.LinuxLetux.IngenicSfc.PioWords
import CatplayFirmware.LinuxLetux.IngenicSfc.Timings
import CatplayFirmware.LinuxLetux.Jz4780Dma
import CatplayFirmware.LinuxLetux.MtdblockBbtRo
import CatplayFirmware.LinuxLetux.Ws2812b
import CatplayFirmware.LinuxLetux.X1600Cgu
import CatplayFirmware.LinuxSunxi.HcdRemove
import CatplayFirmware.LinuxSunxi.Hstimer
import CatplayFirmware.LinuxSunxi.InitrdBlk
import CatplayFirmware.LinuxSunxi.Musb
import CatplayFirmware.LinuxSunxi.MusbBalance
import CatplayFirmware.LinuxSunxi.MusbRuns
import CatplayFirmware.LinuxSunxi.Spif
import CatplayFirmware.Otalib.Boot.BootTail
import CatplayFirmware.Otalib.Boot.Shutdown
import CatplayFirmware.Otalib.FileLines
import CatplayFirmware.Otalib.Flash
import CatplayFirmware.Otalib.FlashTool
import CatplayFirmware.Otalib.Imx.Hwid
import CatplayFirmware.Otalib.Imx.Signer.Env
import CatplayFirmware.Otalib.Imx.Signer.EnvDecode
import CatplayFirmware.Otalib.Imx.Signer.Shellcode
import CatplayFirmware.Otalib.Imx.Signer.Sign
import CatplayFirmware.Otalib.Mini.Cksum
import CatplayFirmware.Otalib.Mini.Crc
import CatplayFirmware.Otalib.Mini.Md5
import CatplayFirmware.Otalib.Mini.Ota
import CatplayFirmware.Otalib.Mini.OtaLeftover
import CatplayFirmware.Otalib.Mini.OtaPacker
import CatplayFirmware.Otalib.Mini.OtaTotal
import CatplayFirmware.Otalib.Modprobe
import CatplayFirmware.Otalib.ModprobeUtil
import CatplayFirmware.Otalib.ModulesInfo
import CatplayFirmware.Otalib.Nostd.Sanitizer
import CatplayFirmware.Otalib.Web.Http
import CatplayFirmware.Otalib.Web.Json
import CatplayFirmware.Otalib.Web.Props
import CatplayFirmware.Otalib.Web.PropsFile
import CatplayFirmware.Otalib.Web.Runs
import CatplayFirmware.Otalib.Web.Server
import CatplayFirmware.SunxiBrandy.Falcon2
import CatplayFirmware.SunxiBrandy.Falcon2Bundle
import CatplayFirmware.SunxiBrandy.Falcon2Load
import CatplayFirmware.SunxiFlasher.BootScriptPatcher
import CatplayFirmware.SunxiFlasher.CpioArchive
import CatplayFirmware.SunxiFlasher.CpioRepack
import CatplayFirmware.SunxiFlasher.Decrypter
import CatplayFirmware.SunxiFlasher.OtaRepacker
import CatplayFirmware.SunxiFlasher.SwuBootenv
import CatplayFirmware.SunxiFlasher.SwuMetadataPatcher
